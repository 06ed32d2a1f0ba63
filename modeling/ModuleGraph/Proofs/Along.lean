import ModuleGraph.Proofs.Fields
import ModuleGraph.Proofs.Lookups

/-! # Relations along a run

A relation between machines that can be composed holds across a run if it holds across each part.
This is said here for work that cannot throw and for visits, and of what settling promises does to
the rest of the machine. -/

namespace ModuleGraph

open Relation

variable {σ κ α β ε : Type} {R : Machine σ κ → Machine σ κ → Prop}

/-! ## Work that cannot throw, and visits -/

/-- All results of work that cannot throw are related to where it started. -/
def Along (R : Machine σ κ → Machine σ κ → Prop) (x : Run σ κ α) : Prop :=
  ∀ s a s', x s = some (a, s') → R s s'

namespace Along

protected theorem pure (hR : Composes R) (a : α) : Along R (pure a : Run σ κ α) := by
  intro s b s' h
  cases h
  exact hR.refl s

protected theorem bind (hR : Composes R) {x : Run σ κ α} {f : α → Run σ κ β} (hx : Along R x)
    (hf : ∀ a, Along R (f a)) : Along R (x >>= f) := by
  intro s b s' h
  obtain ⟨a, s₁, h₁, h₂⟩ := Run.bind_eq_some.1 h
  exact hR.trans (hx _ _ _ h₁) (hf a _ _ _ h₂)

theorem view (hR : Composes R) (f : Machine σ κ → α) : Along R (Run.view f) := by
  intro s a s' h
  cases h
  exact hR.refl s

theorem update {f : Machine σ κ → Machine σ κ} (hf : ∀ s, R s (f s)) : Along R (Run.update f) := by
  intro s a s' h
  cases h
  exact hf s

theorem make {f : Machine σ κ → α × Machine σ κ} (hf : ∀ s, R s (f s).2) :
    Along R (Run.make f) := by
  intro s a s' h
  have hs : f s = (a, s') := Option.some.inj h
  have hR := hf s
  rwa [hs] at hR

theorem outcome {a : Act σ κ α} (h : Within R a) : Along R a.outcome := h

end Along

namespace Within

theorem ofRun {x : Run σ κ α} (h : Along R x) : Within R (Act.ofRun x) := by
  intro s r s' hrun
  obtain ⟨a, -, hrun⟩ := Act.ofRun_eq_some.1 hrun
  exact h _ _ _ hrun

theorem make {f : Machine σ κ → α × Machine σ κ} (hf : ∀ s, R s (f s).2) :
    Within R (Act.make f) := ofRun (Along.make hf)

end Within

def Across (R : Machine σ κ → Machine σ κ → Prop)
    (x : ExceptT ε (StateT Traversal (Run σ κ)) α) : Prop :=
  ∀ t s r s', x t s = some (r, s') → R s s'

namespace Across

protected theorem pure (hR : Composes R) (a : α) :
    Across R (pure a : ExceptT ε (StateT Traversal (Run σ κ)) α) := by
  intro t s r s' h
  cases h
  exact hR.refl s

protected theorem get (hR : Composes R) :
    Across R (get : ExceptT ε (StateT Traversal (Run σ κ)) Traversal) := by
  intro t s r s' h
  cases h
  exact hR.refl s

protected theorem set (hR : Composes R) (t₁ : Traversal) :
    Across R (set t₁ : ExceptT ε (StateT Traversal (Run σ κ)) PUnit) := by
  intro t s r s' h
  cases h
  exact hR.refl s

protected theorem bind (hR : Composes R) {x : ExceptT ε (StateT Traversal (Run σ κ)) α}
    {f : α → ExceptT ε (StateT Traversal (Run σ κ)) β} (hx : Across R x)
    (hf : ∀ a, Across R (f a)) : Across R (x >>= f) := by
  rintro t s ⟨r, t'⟩ s' h
  obtain ⟨a, t₁, s₁, h₁, h₂⟩ | ⟨e, h₁, -⟩ := visit_bind.1 h
  · exact hR.trans (hx _ _ _ _ h₁) (hf a _ _ _ _ h₂)
  · exact hx _ _ _ _ h₁

protected theorem forM (hR : Composes R) {f : β → ExceptT ε (StateT Traversal (Run σ κ)) PUnit}
    (hf : ∀ x, Across R (f x)) (xs : List β) : Across R (xs.forM f) := by
  induction xs with
  | nil => exact Across.pure hR _
  | cons x rest ih => exact Across.bind hR (hf x) fun _ => ih

theorem lift {x : Run σ κ α} (h : Along R x) :
    Across R (ExceptT.lift (StateT.lift x) : ExceptT ε (StateT Traversal (Run σ κ)) α) := by
  rintro t s ⟨r, t'⟩ s' hrun
  obtain ⟨-, a, -, hrun⟩ := visit_lift.1 hrun
  exact h _ _ _ hrun

theorem view (hR : Composes R) (f : Machine σ κ → α) :
    Across R (ExceptT.lift (StateT.lift (Run.view f)) : ExceptT ε (StateT Traversal (Run σ κ)) α) :=
  lift (Along.view hR f)

theorem update {f : Machine σ κ → Machine σ κ} (hf : ∀ s, R s (f s)) :
    Across R (ExceptT.lift (StateT.lift (Run.update f)) :
      ExceptT ε (StateT Traversal (Run σ κ)) Unit) :=
  lift (Along.update hf)

/-- A change of the machine that depends on the stack, and of the stack. -/
theorem restack (hR : Composes R) {f : Traversal → Machine σ κ → Machine σ κ}
    {g : Traversal → Traversal} (hf : ∀ t s, R s (f t s)) :
    Across R (do
      let t ← get
      ExceptT.lift (StateT.lift (Run.update (f t)))
      set (g t) : ExceptT ε (StateT Traversal (Run σ κ)) PUnit) :=
  Across.bind hR (Across.get hR) fun t =>
    Across.bind hR (update (hf t)) fun _ => Across.set hR (g t)

theorem ofLinking {l : Linking σ κ α} (h : Within R l) : Across R (LinkVisit.ofLinking l) := by
  rintro t s ⟨r, t'⟩ s' hrun
  exact h _ _ _ (LinkVisit.ofLinking_eq_some.1 hrun).2

end Across

/-! ## Promises -/

/-- The modules are the same, and the host was told nothing but what became of promises. -/
def Machine.Aside (track : Tracker σ) (s s' : Machine σ κ) : Prop :=
  s'.modules = s.modules ∧ ReflTransGen (fun h h' => ∃ p e, h' = track p e h) s.host s'.host

namespace Machine

variable {track : Tracker σ} {s s' : Machine σ κ}

theorem Aside.of_eq (hm : s'.modules = s.modules) (hh : s'.host = s.host) : s.Aside track s' :=
  ⟨hm, by rw [hh]⟩

theorem Aside.composes (track : Tracker σ) : Composes (Machine.Aside (κ := κ) track) where
  refl _ := .of_eq rfl rfl
  trans h h' := ⟨h'.1.trans h.1, h.2.trans h'.2⟩

/-- A journal that does not tell of promises stays as it is. -/
theorem Aside.journal_eq {journal : σ → α} (h : s.Aside track s')
    (ht : ∀ p e h, journal (track p e h) = journal h) : journal s'.host = journal s.host := by
  obtain ⟨-, hhost⟩ := h
  generalize s'.host = x at hhost
  induction hhost with
  | refl => rfl
  | tail _ hstep ih =>
    obtain ⟨p, e, rfl⟩ := hstep
    exact (ht p e _).trans ih

theorem aside_fulfil (s : Machine σ κ) (p : PromiseId) (v : Value) :
    s.Aside track (s.fulfil p v) := by
  rw [fulfil]
  split <;> exact .of_eq rfl rfl

theorem aside_rejectPending (s : Machine σ κ) (p : PromiseId) (e : Value) :
    s.Aside track (s.rejectPending track p e) := by
  rw [rejectPending]
  split
  · dsimp only
    split
    · exact ⟨rfl, .single ⟨p, .unhandled, rfl⟩⟩
    · exact .of_eq rfl rfl
  · exact .of_eq rfl rfl
  · exact .of_eq rfl rfl

theorem aside_markResolved (s : Machine σ κ) (p : PromiseId) :
    s.Aside track (s.markResolved p) := by
  rw [markResolved]
  split <;> exact .of_eq rfl rfl

theorem aside_resolve (s : Machine σ κ) (c : Capability) (v : Value) :
    s.Aside track (s.resolve track c v) := by
  have hc := Aside.composes (κ := κ) track
  rw [resolve]
  split
  · exact hc.refl s
  · refine hc.trans (aside_markResolved s c.promise) ?_
    dsimp only
    split
    · split
      · exact hc.trans (.of_eq rfl rfl) (aside_rejectPending _ c.promise _)
      · exact .of_eq rfl rfl
    · exact aside_fulfil _ c.promise _

theorem aside_reject (s : Machine σ κ) (c : Capability) (e : Value) :
    s.Aside track (s.reject track c e) := by
  rw [reject]
  split
  · exact .of_eq rfl rfl
  · exact aside_rejectPending s c.promise e

theorem aside_settle (s : Machine σ κ) (c : Capability) (result : Except Value Value) :
    s.Aside track (s.settle track c result) := by
  cases result with
  | ok v => exact aside_resolve s c v
  | error e => exact aside_reject s c e

theorem aside_markHandled (s : Machine σ κ) (p : PromiseId) :
    s.Aside track (s.markHandled track p) := by
  rw [markHandled]
  split
  · exact ⟨rfl, .single ⟨p, .handled, rfl⟩⟩
  all_goals exact .of_eq rfl rfl

theorem aside_attach (s : Machine σ κ) (p : PromiseId) (reaction : Reaction κ) :
    s.Aside track (s.attach track p reaction) := by
  rw [attach]
  dsimp only
  split
  · exact .of_eq rfl rfl
  · exact .of_eq rfl rfl
  · have h : (s.newReaction reaction).2.Aside track
        ((s.newReaction reaction).2.markHandled track p) := aside_markHandled _ p
    exact ⟨h.1, h.2⟩

end Machine

end ModuleGraph
