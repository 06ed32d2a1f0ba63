import ModuleGraph.Proofs.Runs.Components

/-! # Evaluations repeat their answer

A promise that answers for a module does so for good: the capability was stored on the module
itself or on the root of its cycle, which is where later evaluations look for it, and a leaf keeps
its promise. So whoever evaluates the module again gets the same promise, and so does whoever
evaluates another module of the same cycle. -/

namespace ModuleGraph

open Relation

variable {σ κ : Type} {journal : σ → Journal} {owner : κ → ModuleId} {reserved : Set PromiseId}
variable {hosts : Set (Host σ κ)} {host host' : Host σ κ}

namespace Machine

variable {s s₁ s₂ : Machine σ κ} {m n q : ModuleId} {p : PromiseId} {c : Capability}
variable {known : Finding → Prop} {spare : PromiseId → Prop}

/-- Where the promise of a module is looked for that has been asked for before. -/
theorem Resting.capability_of_answered (h : s.Resting journal owner reserved known spare)
    (hc : (s.cyclic q).capability = some c) (hq : q = m ∨ (s.cyclic m).root = some q) :
    (s.cyclic ((s.cyclic m).root.getD m)).capability = some c := by
  obtain rfl | hroot := hq
  · obtain hroot | hroot := h.coherent.own q c hc <;> rwa [hroot]
  · rwa [hroot]

/-- A module that is answered for waits or is evaluated. -/
theorem Resting.status_of_answered (h : s.Resting journal owner reserved known spare)
    (hc : (s.cyclic q).capability = some c) (hq : q = m ∨ (s.cyclic m).root = some q) :
    (s.cyclic m).status = .evaluatingAsync ∨ (s.cyclic m).status = .evaluated := by
  refine (Status.cases_awake fun hi => ?_).resolve_left fun e => nomatch (h.sound.open_iff m).1 e
  obtain rfl | hroot := hq
  · obtain hn | ⟨_, hl⟩ := h.coherent.unasked q (.inl hi)
    · cases hn.symm.trans hc
    · cases hl
  · cases ((h.sound.shaped m).idle hi).1.2.1.symm.trans hroot

/-- A module that is answered for is not evaluated again. -/
theorem Resting.evaluate_eq (h : s.Resting journal owner reserved known spare)
    (hp : s.AnsweredBy m p) (host : Host σ κ) : host.evaluate m s = some (p, s) := by
  obtain hk | ⟨q, c, hc, rfl, hq⟩ := hp
  · rw [Host.evaluate, Run.view_bind, not_isCyclic_of_leaf hk, if_neg Bool.false_ne_true,
      evaluateLeaf, Run.view_bind, ModuleKind.eq_of_leaf? hk]
    rfl
  · have hst := h.status_of_answered hc hq
    have hcyc : s.isCyclic m := isCyclic_of_awake fun hi => by
      obtain e | e := hst <;> rw [e] at hi <;> exact hi
    rw [← status_of_isCyclic hcyc] at hst
    have hcap := h.capability_of_answered hc hq
    rw [← cycleRoot_eq] at hcap
    have hrefusal : refusal? (s.status m) = none := by obtain e | e := hst <;> rw [e] <;> rfl
    have hlinked : s.status m ≠ .linked := by obtain e | e := hst <;> rw [e] <;> rintro ⟨⟩
    rw [Host.evaluate, Run.view_bind, if_pos hcyc, evaluateCyclic, Run.view_bind, hrefusal]
    dsimp only
    rw [if_neg hlinked, Run.view_bind, Run.view_bind, hcap]
    rfl

/-- The promise of a module that takes part in cycles is kept where later evaluations look. -/
theorem Resting.capability_of_answeredBy (h : s.Resting journal owner reserved known spare)
    (hp : s.AnsweredBy m p) (hm : s.isCyclic m) :
    ∃ c, (s.cyclic ((s.cyclic m).root.getD m)).capability = some c ∧ c.promise = p := by
  obtain hk | ⟨q, c, hc, rfl, hq⟩ := hp
  · rw [not_isCyclic_of_leaf hk] at hm
    cases hm
  · exact ⟨c, h.capability_of_answered hc hq, rfl⟩

/-- The promise of a module with a root answers for all modules that have the same one. -/
theorem Resting.answered_of_root (h : s.Resting journal owner reserved known spare)
    (hp : s.AnsweredBy m p) (hm : (s.cyclic m).root = some q) (hn : (s.cyclic n).root = some q) :
    s.AnsweredBy n p := by
  have hcyc : s.isCyclic m := isCyclic_of_awake ((h.sound.shaped m).not_idle_of_root
    (hm.trans_ne (Option.some_ne_none q)))
  obtain ⟨c, hcap, rfl⟩ := h.capability_of_answeredBy hp hcyc
  rw [hm] at hcap
  exact .inr ⟨q, c, hcap, rfl, .inr hn⟩

/-- **Evaluation is idempotent, and a component answers with one promise.** If an evaluation of a
module that is linked, that waits or that is evaluated has returned a promise, then every later
evaluation of the module returns the same promise and changes nothing. If the module had a root when
it was evaluated, then so does every later evaluation of a module with the same root. -/
theorem evaluation_is_idempotent (hc : Conduct journal owner reserved hosts)
    (h : Reachable journal reserved hosts s) (hh : host ∈ hosts) (hm : (s.status m).IsLinked)
    (hrun : host.evaluate m s = some (p, s₁))
    (hsteps : ReflTransGen (Step journal reserved hosts) s₁ s₂) :
    host'.evaluate m s₂ = some (p, s₂) ∧
      ∀ n q, s.cycleRoot? m = some q → s₂.cycleRoot? n = some q →
        host'.evaluate n s₂ = some (p, s₂) := by
  have hhas := has_of_isLinked hm
  have hmove : Move journal reserved hosts s s₁ := .evaluate hh hhas hrun
  have h₁ := h.move hmove
  have hrest := (h₁.steps hsteps).resting hc
  have ha : s₂.AnsweredBy m p :=
    ((evaluate_ends hc hh (h.resting hc) hhas hrun).answered.resolve_right
      fun hn => hn.1 hm).steps hc h₁ hsteps
  refine ⟨hrest.evaluate_eq ha host', fun n q hroot hn => ?_⟩
  rw [cycleRoot?_eq] at hroot hn
  have hroot₂ : (s₂.cyclic m).root = some q :=
    h.shows (f := .rooted m q) hc (.head (.move hmove) hsteps) (fun _ => trivial) hroot
  exact hrest.evaluate_eq (hrest.answered_of_root ha hroot₂ hn) host'

end Machine

/-- Module `0` fails with what module `2` throws, and is asked for again after module `3` was
evaluated. If nothing throws then module `1` is answered for by the promise of module `0`. -/
theorem evaluation_is_idempotent_ring :
    (let plan := fun m => if m = ⟨2⟩ then BodyPlan.throws (.boolean true) else .completes
      let s := Ring.evaluated plan ⟨0⟩ (Ring.linked plan)
      let s' := Ring.evaluated plan ⟨3⟩ s
      s.evaluationError? ⟨0⟩ = some (.boolean true) ∧
        (Ring.host plan).evaluate ⟨0⟩ s' = some (⟨0⟩, s')) ∧
    (let plan := fun _ => BodyPlan.completes
      let s := Ring.evaluated plan ⟨0⟩ (Ring.linked plan)
      s.cycleRoot? ⟨0⟩ = s.cycleRoot? ⟨1⟩ ∧ (Ring.host plan).evaluate ⟨1⟩ s = some (⟨0⟩, s)) := by
  refine ⟨?_, ?_⟩
  · intro plan s s'
    have hstatus : (Ring.linked plan).status ⟨0⟩ = .linked := by decide
    have hrun : (Ring.host plan).evaluate ⟨0⟩ (Ring.linked plan) = some (⟨0⟩, s) :=
      Ring.evaluate_eq (by decide)
    have hthird : (Ring.host plan).evaluate ⟨3⟩ s = some (⟨1⟩, s') := Ring.evaluate_eq (by decide)
    have hhas : s.Has ⟨3⟩ := Machine.has_of_status_ne (by decide)
    exact ⟨by decide, (Machine.evaluation_is_idempotent ((ring plan).conduct 5 Set.univ)
      (Ring.reachable_linked plan Set.univ (by decide)) rfl (by rw [hstatus]; trivial) hrun
      (.single (.move (.evaluate rfl hhas hthird)))).1⟩
  · intro plan s
    have hstatus : (Ring.linked plan).status ⟨0⟩ = .linked := by decide
    have hstatus' : s.status ⟨0⟩ = .evaluated := by decide
    have hlinked := Ring.reachable_linked plan Set.univ (by decide)
    have hrun : (Ring.host plan).evaluate ⟨0⟩ (Ring.linked plan) = some (⟨0⟩, s) :=
      Ring.evaluate_eq (by decide)
    have hagain : (Ring.host plan).evaluate ⟨0⟩ s = some (⟨0⟩, s) :=
      (Machine.evaluation_is_idempotent ((ring plan).conduct 5 Set.univ) hlinked rfl
        (by rw [hstatus]; trivial) hrun .refl).1
    have h₀ : s.cycleRoot? ⟨0⟩ = some ⟨0⟩ := by decide
    have h₁ : s.cycleRoot? ⟨1⟩ = some ⟨0⟩ := by decide
    have hs : Machine.Reachable id Set.univ {Ring.host plan} s :=
      hlinked.move (.evaluate rfl (by decide : 0 < 4) hrun)
    exact ⟨h₀.trans h₁.symm, (Machine.evaluation_is_idempotent ((ring plan).conduct 5 Set.univ) hs
      rfl (by rw [hstatus']; trivial) hagain .refl).2 ⟨1⟩ ⟨0⟩ h₀ h₁⟩

end ModuleGraph
