import ObjectValidation.Proofs.Requests
/-!
# Remembered sequences

A sequence that is remembered is what its name would be expanded to again, whatever was requested
before and however that ended. So a request comes to the same answer from every memory that earlier
requests have left.
-/

namespace ObjectValidation

variable {r : Registry}

/-- Whether what is remembered of each sequence is what it would be expanded to again. -/
def SequenceCache.Coherent (r : Registry) (cache : SequenceCache) : Prop :=
  ∀ name s, cache.lookup name = some s →
    ∃ members, r.sequenceMembers? name = some members ∧ Sequence.build r name members = .ok s

theorem SequenceCache.coherent_nil (r : Registry) : SequenceCache.Coherent r [] := by
  simp [SequenceCache.Coherent]

/-- Whether a computation comes to one and the same answer from all coherent memories and leaves them
coherent. -/
def Expanding.Steady {α : Type} (r : Registry) (x : Expanding α) : Prop :=
  ∃ answer : Except Error α, ∀ cache, SequenceCache.Coherent r cache →
    ∃ cache', SequenceCache.Coherent r cache' ∧ (x.run.run cache).run = (answer, cache')

/-- What a computation comes to where nothing is remembered. -/
def Expanding.answer {α : Type} (x : Expanding α) : Except Error α := ((x.run.run []).run).1

namespace Expanding.Steady

variable {α β : Type}

theorem ofExcept (x : Except Error α) : Steady r (x : Expanding α) := by
  refine ⟨x, ?_⟩
  intro cache h
  refine ⟨cache, h, ?_⟩
  cases x <;> rfl

theorem bind {x : Expanding α} {f : α → Expanding β} (hx : Steady r x)
    (hf : ∀ a, Steady r (f a)) : Steady r (x >>= f) := by
  obtain ⟨answer, hx⟩ := hx
  cases answer with
  | error e =>
    refine ⟨.error e, ?_⟩
    intro cache h
    obtain ⟨cache', h', hrun⟩ := hx cache h
    exact ⟨cache', h', by rw [run_bind, hrun]⟩
  | ok a =>
    obtain ⟨answer, hf⟩ := hf a
    refine ⟨answer, ?_⟩
    intro cache h
    obtain ⟨cache', h', hrun⟩ := hx cache h
    obtain ⟨cache'', h'', hrun'⟩ := hf cache' h'
    refine ⟨cache'', h'', ?_⟩
    rw [run_bind, hrun]
    exact hrun'

theorem foldlM {f : β → α → Expanding β} (hf : ∀ b a, Steady r (f b a)) :
    ∀ (as : List α) (b : β), Steady r (as.foldlM f b)
  | [], b => ofExcept (.ok b)
  | a :: as, b => by
    rw [List.foldlM_cons]
    exact (hf b a).bind fun b' => foldlM hf as b'

theorem forM {f : α → Expanding PUnit} (hf : ∀ a, Steady r (f a)) :
    ∀ as : List α, Steady r (as.forM f)
  | [] => ofExcept (.ok PUnit.unit)
  | a :: as => (hf a).bind fun _ => forM hf as

theorem coherent {x : Expanding α} (h : Steady r x) {cache : SequenceCache}
    (hcache : SequenceCache.Coherent r cache) :
    SequenceCache.Coherent r ((x.run.run cache).run).2 := by
  obtain ⟨answer, h⟩ := h
  obtain ⟨cache', h', hrun⟩ := h cache hcache
  rw [hrun]
  exact h'

/-- From a coherent memory a steady computation comes to what it does from none. -/
theorem run_eq {x : Expanding α} (h : Steady r x) {cache : SequenceCache}
    (hcache : SequenceCache.Coherent r cache) : ((x.run.run cache).run).1 = answer x := by
  obtain ⟨answer, h⟩ := h
  obtain ⟨_, -, hrun⟩ := h cache hcache
  obtain ⟨_, -, hfresh⟩ := h [] (SequenceCache.coherent_nil r)
  rw [Expanding.answer, hrun, hfresh]

theorem answer_bind {x : Expanding α} {f : α → Expanding β} (hx : Steady r x)
    (hf : ∀ a, Steady r (f a)) : answer (x >>= f) = answer x >>= fun a => answer (f a) := by
  have hcoherent := hx.coherent (SequenceCache.coherent_nil r)
  unfold answer
  rw [run_bind]
  split
  · next a cache' hrun =>
    rw [hrun] at hcoherent ⊢
    exact (hf a).run_eq hcoherent
  · next e cache' hrun =>
    rw [hrun]
    rfl

end Expanding.Steady

namespace Order

open Expanding

theorem steady_obtainSequence {name : TypeName} {members : List TypeName}
    (hmembers : r.sequenceMembers? name = some members) :
    Steady r (obtainSequence r name members) := by
  refine ⟨Sequence.build r name members, ?_⟩
  intro cache h
  unfold obtainSequence
  rw [run_get_bind]
  cases hl : cache.lookup name with
  | some s =>
    obtain ⟨members', hmembers', hbuild⟩ := h name s hl
    rw [hmembers] at hmembers'
    cases hmembers'
    exact ⟨cache, h, by rw [hbuild]; rfl⟩
  | none =>
    cases hbuild : Sequence.build r name members with
    | error e => exact ⟨cache, h, rfl⟩
    | ok s =>
      refine ⟨cache ++ [(name, s)], ?_, rfl⟩
      intro name' s' hs'
      rcases lookup_concat hs' with hs' | ⟨rfl, rfl⟩
      · exact h name' s' hs'
      · exact ⟨members, hmembers, hbuild⟩

theorem answer_obtainSequence (name : TypeName) (members : List TypeName) :
    answer (obtainSequence r name members) = Sequence.build r name members := by
  unfold obtainSequence Expanding.answer
  rw [run_get_bind]
  cases Sequence.build r name members <;> rfl

theorem steady_request (o : Order) (group : TypeName) : Steady r (request r o group) := by
  unfold request
  split
  · exact .ofExcept (.ok _)
  · split
    · next members hmembers =>
      exact (steady_obtainSequence hmembers).bind fun s => .ofExcept (.ok (o.addSequence s))
    · exact (Steady.ofExcept _).bind fun _ => .ofExcept (.ok _)

/-- A request comes to the same answer from all coherent memories and leaves them coherent. -/
theorem steady_ofGroups (r : Registry) (groups : List TypeName) : Steady r (ofGroups r groups) := by
  unfold ofGroups
  cases groups with
  | nil => exact .ofExcept (.error .emptyGroups)
  | cons group groups =>
    simp only [List.isEmpty_cons, Bool.false_eq_true, if_false]
    split
    · exact .ofExcept (.ok default)
    · exact (Steady.forM (fun g => .ofExcept (checkGroup r g)) (group :: groups)).bind fun _ =>
        .foldlM steady_request (group :: groups) {}

theorem steady_ofGroup (r : Registry) (group : TypeName) (expand : Bool) :
    Steady r (ofGroup r group expand) := by
  unfold ofGroup
  split
  · exact .ofExcept (.ok _)
  · split
    · exact steady_ofGroups r [group]
    · exact .ofExcept (.ok _)

/-- What is remembered after requests, those that failed included. -/
def rememberedAfter (r : Registry) : SequenceCache → List (List TypeName) → SequenceCache
  | cache, [] => cache
  | cache, groups :: later =>
    rememberedAfter r (((ofGroups r groups).run.run cache).run).2 later

theorem coherent_rememberedAfter : ∀ {requests : List (List TypeName)} {cache : SequenceCache},
    SequenceCache.Coherent r cache → SequenceCache.Coherent r (rememberedAfter r cache requests)
  | [], _, h => h
  | groups :: requests, _, h => by
    rw [rememberedAfter]
    exact coherent_rememberedAfter ((steady_ofGroups r groups).coherent h)

end Order

end ObjectValidation
