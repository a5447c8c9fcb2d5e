import ObjectValidation.Proofs.Hierarchy
/-!
# Depth first

The walk over interfaces takes a type up where it first comes to it and follows what that lists before
it goes on. So it finds the types along all ways through interfaces, each where it comes first
(`collect_eq`), and ways that come back to one of their own types add nothing to that.

The walk knows all that it has seen, a way knows only what it came through. That both stop at the same
types rests on `Done`: what has been seen and is not on the way has been followed to its end.
-/

namespace ObjectValidation

/-! ### What is new in a list -/

/-- The names of a list that have not been seen, each at its first place. -/
def fresh (seen names : List TypeName) : List TypeName := (names.removeAll seen).eraseDups

theorem mem_fresh {seen names : List TypeName} {x : TypeName} :
    x ∈ fresh seen names ↔ x ∈ names ∧ x ∉ seen := by
  simp [fresh, List.removeAll]

theorem fresh_append (seen xs ys : List TypeName) :
    fresh seen (xs ++ ys) = fresh seen xs ++ fresh (seen ++ fresh seen xs) ys := by
  have hboth : (ys.removeAll seen).removeAll (xs.removeAll seen) =
      ys.removeAll (seen ++ fresh seen xs) := by
    simp only [List.removeAll, List.filter_filter]
    refine List.filter_congr fun y _ => ?_
    simp only [List.elem_eq_contains, List.contains_eq_mem, List.mem_filter, List.mem_append, mem_fresh]
    by_cases hy : y ∈ seen <;> simp [hy]
  unfold fresh at hboth ⊢
  rw [← hboth, ← List.eraseDups_append, List.removeAll, List.filter_append]
  rfl

theorem fresh_of_subset {seen names : List TypeName} (h : names ⊆ seen) : fresh seen names = [] := by
  refine List.eq_nil_iff_forall_not_mem.2 fun x hx => ?_
  exact (mem_fresh.1 hx).2 (h (mem_fresh.1 hx).1)

theorem fresh_cons {seen names : List TypeName} {name : TypeName} (h : name ∉ seen) :
    fresh seen (name :: names) = name :: fresh (seen ++ [name]) names := by
  have hone : fresh seen [name] = [name] := by
    simp [fresh, List.removeAll, h, List.eraseDups_cons]
  rw [← List.singleton_append, fresh_append, hone, List.singleton_append]

theorem fresh_of_disjoint {seen names : List TypeName} (h : ∀ x ∈ names, x ∉ seen) :
    fresh seen names = names.eraseDups := by
  rw [fresh, List.removeAll, List.filter_eq_self.2]
  simpa using h

namespace Registry

variable {r : Registry}

/-! ### Ways through interfaces -/

/-- The types along all ways through interfaces from a type on, depth first and in the order in which
interfaces are listed. A way ends where it would come to one of its own types or of the path. -/
def along (r : Registry) (path : List TypeName) (name : TypeName) : List TypeName :=
  if _hs : name ∈ path then []
  else
    match _h : r.get? name with
    | none => [name]
    | some d => name :: d.interfaces.flatMap fun interface => along r (path ++ [name]) interface
termination_by r.unmetWeight path
decreasing_by exact unmetWeight_lt _h _hs

theorem along_of_get? {path : List TypeName} {name : TypeName} {d : TypeDefinition}
    (h : name ∉ path) (hd : r.get? name = some d) :
    r.along path name = name :: d.interfaces.flatMap (r.along (path ++ [name])) := by
  rw [along, dif_neg h]
  split
  · next hnone => simp [hd] at hnone
  · next e he =>
    rw [hd] at he
    cases he
    rfl

theorem notMem_path_of_along {path : List TypeName} {name x : TypeName}
    (hx : x ∈ r.along path name) : x ∉ path := by
  fun_induction r.along path name with
  | case1 path name hs => cases hx
  | case2 path name hs hnone => exact List.mem_singleton.1 hx ▸ hs
  | case3 path name hs d hd ih =>
    rcases List.mem_cons.1 hx with rfl | hx
    · exact hs
    · obtain ⟨interface, -, hx⟩ := List.mem_flatMap.1 hx
      exact fun hpath => ih interface hx (List.mem_append_left _ hpath)

theorem fresh_flatMap_along (path names : List TypeName) :
    fresh path (names.flatMap (r.along path)) = (names.flatMap (r.along path)).eraseDups := by
  refine fresh_of_disjoint fun x hx => ?_
  obtain ⟨name, -, hx⟩ := List.mem_flatMap.1 hx
  exact notMem_path_of_along hx

/-- What has been seen, but for what is on the path, has been followed to its end. -/
structure Done (r : Registry) (path seen : List TypeName) : Prop where
  path_subset : path ⊆ seen
  closed : ∀ x ∈ seen, x ∉ path → ∀ d, r.get? x = some d → d.interfaces ⊆ seen

theorem Done.self (r : Registry) (path : List TypeName) : r.Done path path :=
  ⟨List.Subset.refl _, fun _ hx hn => absurd hx hn⟩

/-- A type that the walk comes to joins the path. -/
theorem Done.enter {path seen : List TypeName} (h : r.Done path seen) (name : TypeName) :
    r.Done (path ++ [name]) (seen ++ [name]) := by
  refine ⟨List.append_subset.2 ⟨List.subset_append_of_subset_left _ h.path_subset,
    List.subset_append_right _ _⟩, ?_⟩
  intro x hx hn d hd
  simp only [List.mem_append, List.mem_singleton, not_or] at hx hn
  have hseen : x ∈ seen := hx.resolve_right hn.2
  exact List.subset_append_of_subset_left _ (h.closed x hseen hn.1 d hd)

/-- The walk follows all that it comes to. -/
theorem Done.collect {path seen pending names : List TypeName} (h : r.Done path seen)
    (hnames : r.collect seen pending = .ok names) : r.Done path names := by
  have hcollects := collect_ok hnames
  have hkept : seen ⊆ names := hcollects.seen_prefix.subset
  refine ⟨List.Subset.trans h.path_subset hkept, ?_⟩
  intro x hx hn d hd
  by_cases hseen : x ∈ seen
  · exact List.Subset.trans (h.closed x hseen hn d hd) hkept
  · exact hcollects.closed x hx hseen d hd

/-- No way from a type that has been seen leads out of what has been seen. -/
theorem Done.along_subset {path seen : List TypeName} {name : TypeName} (h : r.Done path seen)
    (hname : name ∈ seen) : r.along path name ⊆ seen := by
  fun_induction r.along path name with
  | case1 path name hs => exact List.nil_subset _
  | case2 path name hs hnone => exact List.cons_subset.2 ⟨hname, List.nil_subset _⟩
  | case3 path name hs d hd ih =>
    have hentered : r.Done (path ++ [name]) seen := by
      refine ⟨List.append_subset.2 ⟨h.path_subset, List.cons_subset.2 ⟨hname, List.nil_subset _⟩⟩, ?_⟩
      exact fun x hx hn => h.closed x hx fun hpath => hn (List.mem_append_left _ hpath)
    refine List.cons_subset.2 ⟨hname, fun x hx => ?_⟩
    obtain ⟨interface, hinterface, hx⟩ := List.mem_flatMap.1 hx
    exact ih interface hentered (h.closed name hname hs d hd hinterface) hx

/-! ### The walk -/

theorem collect_append (seen xs ys : List TypeName) :
    r.collect seen (xs ++ ys) = r.collect seen xs >>= fun seen' => r.collect seen' ys := by
  fun_induction r.collect seen xs with
  | case1 seen => rfl
  | case2 seen name rest hs ih =>
    rw [List.cons_append, collect, dif_pos hs]
    exact ih
  | case3 seen name rest hs hnone =>
    rw [List.cons_append, collect, dif_neg hs]
    split
    · rfl
    · next d hd => simp [hnone] at hd
  | case4 seen name rest hs d hd ih =>
    rw [List.cons_append, collect, dif_neg hs]
    split
    · next hnone => simp [hd] at hnone
    · next e he =>
      rw [hd] at he
      cases he
      rw [← List.append_assoc]
      exact ih

/-- The walk takes up a type that it has not seen, and then what that lists. -/
theorem collect_singleton {seen names : List TypeName} {name : TypeName} (hs : name ∉ seen)
    (h : r.collect seen [name] = .ok names) :
    ∃ d, r.get? name = some d ∧ r.collect (seen ++ [name]) d.interfaces = .ok names := by
  rw [collect, dif_neg hs] at h
  split at h
  · cases h
  · next d hd =>
    rw [List.append_nil] at h
    exact ⟨d, hd, h⟩

/-- The walk adds to what has been seen the types along all ways from what is pending, each where it
comes first. -/
theorem collect_eq {path seen pending names : List TypeName} (hdone : r.Done path seen)
    (h : r.collect seen pending = .ok names) :
    names = seen ++ fresh seen (pending.flatMap (r.along path)) := by
  -- The path grows on the way down, what has been seen grows along what is pending.
  induction hn : r.unmetWeight path using Nat.strongRecOn
    generalizing path seen pending names with
  | ind n ihpath =>
    induction pending generalizing seen with
    | nil =>
      rw [collect] at h
      cases h
      simp [fresh]
    | cons name rest ihrest =>
      rw [← List.singleton_append, collect_append] at h
      obtain ⟨seen', hname, hrest⟩ := bind_eq_ok.1 h
      have hseen' : seen' = seen ++ fresh seen (r.along path name) := by
        by_cases hs : name ∈ seen
        · rw [collect, dif_pos hs, collect] at hname
          cases hname
          rw [fresh_of_subset (hdone.along_subset hs), List.append_nil]
        · have hpath : name ∉ path := fun hpath => hs (hdone.path_subset hpath)
          obtain ⟨d, hd, hbelow⟩ := collect_singleton hs hname
          rw [ihpath _ (hn ▸ unmetWeight_lt hd hpath) (hdone.enter name) hbelow rfl,
            along_of_get? hpath hd, fresh_cons hs, List.append_assoc, List.singleton_append]
      rw [ihrest (hdone.collect hname) hrest, hseen', List.flatMap_cons, fresh_append,
        List.append_assoc]

/-- The superinterfaces of a type are what comes along all ways behind it, each where it comes first. -/
theorem superInterfaces_eq {name : TypeName} {names : List TypeName}
    (h : r.superInterfaces name = .ok names) : names = (r.along [] name).tail.eraseDups := by
  obtain ⟨d, hd, h⟩ := bind_eq_ok.1 h
  obtain ⟨all, hall, h⟩ := bind_eq_ok.1 h
  cases h
  rw [collect_eq (.self r [name]) hall, fresh_flatMap_along,
    along_of_get? List.not_mem_nil (resolve_eq_ok.1 hd)]
  rfl

end Registry

end ObjectValidation
