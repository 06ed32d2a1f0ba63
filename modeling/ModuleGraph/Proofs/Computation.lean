import ModuleGraph.Evaluation.Jobs

/-! # Computations that have a result

A computation with a result ran step by step: each step had a result of its own, and the next one
started from the machine that it left. The lemmas here take a computation apart in this way. They
cover work that cannot throw, work that may throw, and visits, which carry a traversal along. -/

namespace ModuleGraph

variable {σ κ α β ε : Type}

namespace Run

variable {s s' : Machine σ κ}

theorem bind_eq_some {x : Run σ κ α} {f : α → Run σ κ β} {r : β × Machine σ κ} :
    (x >>= f) s = some r ↔ ∃ a s₁, x s = some (a, s₁) ∧ f a s₁ = some r := by
  change (x s).bind (fun p => f p.1 p.2) = some r ↔ _
  rw [Option.bind_eq_some_iff]
  constructor
  · rintro ⟨⟨a, s₁⟩, h, h'⟩
    exact ⟨a, s₁, h, h'⟩
  · rintro ⟨a, s₁, h, h'⟩
    exact ⟨(a, s₁), h, h'⟩

@[simp] theorem pure_apply (a : α) : (pure a : Run σ κ α) s = some (a, s) := rfl

@[simp] theorem exhausted_apply : (exhausted : Run σ κ α) s = none := rfl

@[simp] theorem update_apply (f : Machine σ κ → Machine σ κ) :
    Run.update f s = some ((), f s) := rfl

@[simp] theorem make_apply (f : Machine σ κ → α × Machine σ κ) : Run.make f s = some (f s) := rfl

@[simp] theorem view_apply (f : Machine σ κ → α) : Run.view f s = some (f s, s) := rfl

@[simp] theorem update_bind (f : Machine σ κ → Machine σ κ) (g : Unit → Run σ κ β) :
    (Run.update f >>= g) s = g () (f s) := rfl

@[simp] theorem make_bind (f : Machine σ κ → α × Machine σ κ) (g : α → Run σ κ β) :
    (Run.make f >>= g) s = g (f s).1 (f s).2 := rfl

@[simp] theorem view_bind (f : Machine σ κ → α) (g : α → Run σ κ β) :
    (Run.view f >>= g) s = g (f s) s := rfl

end Run

/-! ## Work that may throw -/

section Throwing

variable {s s' : Machine σ κ}

/-- A sequence that has a result: the first part returned and the second one went on, or the first
part threw. -/
theorem throwing_bind {x : ExceptT ε (Run σ κ) α} {f : α → ExceptT ε (Run σ κ) β}
    {r : Except ε β} :
    (x >>= f) s = some (r, s') ↔
      (∃ a s₁, x s = some (.ok a, s₁) ∧ f a s₁ = some (r, s')) ∨
        ∃ e, x s = some (.error e, s') ∧ r = .error e := by
  change (x s).bind (fun p => ExceptT.bindCont f p.1 p.2) = some (r, s') ↔ _
  rw [Option.bind_eq_some_iff]
  constructor
  · rintro ⟨⟨a | a, s₁⟩, h, h'⟩
    · cases h'
      exact .inr ⟨a, h, rfl⟩
    · exact .inl ⟨a, s₁, h, h'⟩
  · rintro (⟨a, s₁, h, h'⟩ | ⟨e, h, rfl⟩)
    · exact ⟨_, h, h'⟩
    · exact ⟨_, h, rfl⟩

theorem throwing_bind_of_ok {x : ExceptT ε (Run σ κ) α} {f : α → ExceptT ε (Run σ κ) β} {a : α}
    (h : x s = some (.ok a, s')) : (x >>= f) s = f a s' := by
  change (x s).bind (fun p => ExceptT.bindCont f p.1 p.2) = f a s'
  rw [h]
  rfl

@[simp] theorem throwing_pure (a : α) :
    (pure a : ExceptT ε (Run σ κ) α) s = some (.ok a, s) := rfl

@[simp] theorem throwing_throw (e : ε) :
    (throw e : ExceptT ε (Run σ κ) α) s = some (.error e, s) := rfl

theorem throwing_lift {x : Run σ κ α} {r : Except ε α} :
    (ExceptT.lift x : ExceptT ε (Run σ κ) α) s = some (r, s') ↔
      ∃ a, r = .ok a ∧ x s = some (a, s') := by
  change (x s).bind (fun p => some (Except.ok p.1, p.2)) = some (r, s') ↔ _
  rw [Option.bind_eq_some_iff]
  constructor
  · rintro ⟨⟨a, s₁⟩, h, h'⟩
    cases h'
    exact ⟨a, rfl, h⟩
  · rintro ⟨a, rfl, h⟩
    exact ⟨_, h, rfl⟩

namespace Act

theorem ofRun_eq_some {x : Run σ κ α} {r : Except Value α} :
    Act.ofRun x s = some (r, s') ↔ ∃ a, r = .ok a ∧ x s = some (a, s') := throwing_lift

@[simp] theorem update_apply (f : Machine σ κ → Machine σ κ) :
    Act.update f s = some (.ok (), f s) := rfl

@[simp] theorem make_apply (f : Machine σ κ → α × Machine σ κ) :
    Act.make f s = some (.ok (f s).1, (f s).2) := rfl

@[simp] theorem view_apply (f : Machine σ κ → α) : Act.view f s = some (.ok (f s), s) := rfl

@[simp] theorem update_bind (f : Machine σ κ → Machine σ κ) (g : Unit → Act σ κ β) :
    (Act.update f >>= g) s = g () (f s) := rfl

@[simp] theorem make_bind (f : Machine σ κ → α × Machine σ κ) (g : α → Act σ κ β) :
    (Act.make f >>= g) s = g (f s).1 (f s).2 := rfl

@[simp] theorem view_bind (f : Machine σ κ → α) (g : α → Act σ κ β) :
    (Act.view f >>= g) s = g (f s) s := rfl

@[simp] theorem outcome_apply (a : Act σ κ α) : a.outcome s = a s := rfl

@[simp] theorem ofExcept_apply (r : Except Value α) :
    (Act.ofExcept r : Act σ κ α) s = some (r, s) := by
  cases r <;> rfl

@[simp] theorem fail_apply (kind : ErrorKind) (message : String) :
    (Act.fail kind message : Act σ κ α) s =
      some (.error (s.newError kind message).1, (s.newError kind message).2) := rfl

end Act

namespace Linking

@[simp] theorem update_apply (f : Machine σ κ → Machine σ κ) :
    Linking.update f s = some (.ok (), f s) := rfl

@[simp] theorem view_apply (f : Machine σ κ → α) : Linking.view f s = some (.ok (f s), s) := rfl

@[simp] theorem view_bind (f : Machine σ κ → α) (g : α → Linking σ κ β) :
    (Linking.view f >>= g) s = g (f s) s := rfl

theorem ofAct_eq_some {wrap : Value → LinkError} {a : Act σ κ α} {r : Except LinkError α} :
    Linking.ofAct wrap a s = some (r, s') ↔ ∃ x, a s = some (x, s') ∧ r = x.mapError wrap := by
  rw [Linking.ofAct, throwing_bind]
  simp only [throwing_lift, Act.outcome_apply]
  constructor
  · rintro (⟨x, s₁, ⟨y, hy, hx⟩, h⟩ | ⟨e, ⟨a, h, _⟩, _⟩)
    · cases hy
      cases x <;> simp only [throwing_pure, throwing_throw] at h <;> cases h <;>
        exact ⟨_, hx, rfl⟩
    · cases h
  · rintro ⟨x, hx, rfl⟩
    exact .inl ⟨x, s', ⟨x, rfl, hx⟩, by cases x <;> rfl⟩

end Linking

end Throwing

/-! ## Visits -/

section Visits

variable {s s' : Machine σ κ} {t t' : Traversal}

theorem visit_bind {x : ExceptT ε (StateT Traversal (Run σ κ)) α}
    {f : α → ExceptT ε (StateT Traversal (Run σ κ)) β} {r : Except ε β} :
    (x >>= f) t s = some ((r, t'), s') ↔
      (∃ a t₁ s₁, x t s = some ((.ok a, t₁), s₁) ∧ f a t₁ s₁ = some ((r, t'), s')) ∨
        ∃ e, x t s = some ((.error e, t'), s') ∧ r = .error e := by
  change (x t s).bind (fun p => ExceptT.bindCont f p.1.1 p.1.2 p.2) = some ((r, t'), s') ↔ _
  rw [Option.bind_eq_some_iff]
  constructor
  · rintro ⟨⟨⟨a | a, t₁⟩, s₁⟩, h, h'⟩
    · cases h'
      exact .inr ⟨a, h, rfl⟩
    · exact .inl ⟨a, t₁, s₁, h, h'⟩
  · rintro (⟨a, t₁, s₁, h, h'⟩ | ⟨e, h, rfl⟩)
    · exact ⟨_, h, h'⟩
    · exact ⟨_, h, rfl⟩

@[simp] theorem visit_pure (a : α) :
    (pure a : ExceptT ε (StateT Traversal (Run σ κ)) α) t s = some ((.ok a, t), s) := rfl

@[simp] theorem visit_throw (e : ε) :
    (throw e : ExceptT ε (StateT Traversal (Run σ κ)) α) t s = some ((.error e, t), s) := rfl

@[simp] theorem visit_get :
    (get : ExceptT ε (StateT Traversal (Run σ κ)) Traversal) t s = some ((.ok t, t), s) := rfl

@[simp] theorem visit_set (t₁ : Traversal) :
    (set t₁ : ExceptT ε (StateT Traversal (Run σ κ)) PUnit) t s = some ((.ok ⟨⟩, t₁), s) := rfl

theorem visit_lift {x : Run σ κ α} {r : Except ε α} :
    (ExceptT.lift (StateT.lift x) : ExceptT ε (StateT Traversal (Run σ κ)) α) t s =
        some ((r, t'), s') ↔ t' = t ∧ ∃ a, r = .ok a ∧ x s = some (a, s') := by
  change ((x s).bind fun p => some ((p.1, t), p.2)).bind
    (fun p => some ((Except.ok p.1.1, p.1.2), p.2)) = some ((r, t'), s') ↔ _
  rw [Option.bind_assoc, Option.bind_eq_some_iff]
  constructor
  · rintro ⟨⟨a, s₁⟩, h, h'⟩
    cases h'
    exact ⟨rfl, a, rfl, h⟩
  · rintro ⟨rfl, a, rfl, h⟩
    exact ⟨_, h, rfl⟩

/-- A loop over a list that has a result: each round returned and went on, or one of them threw. -/
theorem visit_forM_cons {x : β} {rest : List β}
    {f : β → ExceptT ε (StateT Traversal (Run σ κ)) PUnit} {r : Except ε PUnit} :
    ((x :: rest).forM f) t s = some ((r, t'), s') ↔
      (∃ t₁ s₁, f x t s = some ((.ok ⟨⟩, t₁), s₁) ∧ (rest.forM f) t₁ s₁ = some ((r, t'), s')) ∨
        ∃ e, f x t s = some ((.error e, t'), s') ∧ r = .error e := by
  rw [show (x :: rest).forM f = (f x >>= fun _ => rest.forM f) from rfl, visit_bind]
  constructor
  · rintro (⟨⟨⟩, t₁, s₁, h⟩ | h)
    · exact .inl ⟨t₁, s₁, h⟩
    · exact .inr h
  · rintro (⟨t₁, s₁, h⟩ | h)
    · exact .inl ⟨⟨⟩, t₁, s₁, h⟩
    · exact .inr h

namespace LinkVisit

theorem ofRun_eq_some {x : Run σ κ α} {r : Except LinkError α} :
    LinkVisit.ofRun x t s = some ((r, t'), s') ↔
      t' = t ∧ ∃ a, r = .ok a ∧ x s = some (a, s') := visit_lift

@[simp] theorem update_apply (f : Machine σ κ → Machine σ κ) :
    LinkVisit.update f t s = some ((.ok (), t), f s) := rfl

@[simp] theorem view_apply (f : Machine σ κ → α) :
    LinkVisit.view f t s = some ((.ok (f s), t), s) := rfl

@[simp] theorem update_bind (f : Machine σ κ → Machine σ κ) (g : Unit → LinkVisit σ κ β) :
    (LinkVisit.update f >>= g) t s = g () t (f s) := rfl

@[simp] theorem view_bind (f : Machine σ κ → α) (g : α → LinkVisit σ κ β) :
    (LinkVisit.view f >>= g) t s = g (f s) t s := rfl

theorem ofLinking_eq_some {l : Linking σ κ α} {r : Except LinkError α} :
    LinkVisit.ofLinking l t s = some ((r, t'), s') ↔ t' = t ∧ l s = some (r, s') := by
  rw [LinkVisit.ofLinking, visit_bind]
  simp only [ofRun_eq_some]
  constructor
  · rintro (⟨x, t₁, s₁, ⟨rfl, y, hy, hx⟩, h⟩ | ⟨e, ⟨_, a, h, _⟩, _⟩)
    · cases hy
      cases x <;> simp only [visit_pure, visit_throw] at h <;> cases h <;> exact ⟨rfl, hx⟩
    · cases h
  · rintro ⟨rfl, h⟩
    exact .inl ⟨r, t', s', ⟨rfl, r, rfl, h⟩, by cases r <;> rfl⟩

end LinkVisit

namespace EvalVisit

theorem ofRun_eq_some {x : Run σ κ α} {r : Except Value α} :
    EvalVisit.ofRun x t s = some ((r, t'), s') ↔
      t' = t ∧ ∃ a, r = .ok a ∧ x s = some (a, s') := visit_lift

@[simp] theorem update_apply (f : Machine σ κ → Machine σ κ) :
    EvalVisit.update f t s = some ((.ok (), t), f s) := rfl

@[simp] theorem view_apply (f : Machine σ κ → α) :
    EvalVisit.view f t s = some ((.ok (f s), t), s) := rfl

@[simp] theorem update_bind (f : Machine σ κ → Machine σ κ) (g : Unit → EvalVisit σ κ β) :
    (EvalVisit.update f >>= g) t s = g () t (f s) := rfl

@[simp] theorem view_bind (f : Machine σ κ → α) (g : α → EvalVisit σ κ β) :
    (EvalVisit.view f >>= g) t s = g (f s) t s := rfl

theorem ofAct_eq_some {a : Act σ κ α} {r : Except Value α} :
    EvalVisit.ofAct a t s = some ((r, t'), s') ↔ t' = t ∧ a s = some (r, s') := by
  rw [EvalVisit.ofAct, visit_bind]
  simp only [ofRun_eq_some, Act.outcome_apply]
  constructor
  · rintro (⟨x, t₁, s₁, ⟨rfl, y, hy, hx⟩, h⟩ | ⟨e, ⟨_, a, h, _⟩, _⟩)
    · cases hy
      cases x <;> simp only [visit_pure, visit_throw] at h <;> cases h <;> exact ⟨rfl, hx⟩
    · cases h
  · rintro ⟨rfl, h⟩
    exact .inl ⟨r, t', s', ⟨rfl, r, rfl, h⟩, by cases r <;> rfl⟩

end EvalVisit

end Visits

end ModuleGraph
