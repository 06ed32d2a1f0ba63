import ModuleGraph.Proofs.Exports.Graph

/-! # Lookups that have a result

A lookup in a graph has a result whatever machine of the world it starts from. What it leads to is
said together with the fact that it ends. -/

namespace ModuleGraph

variable {σ κ α β ε : Type}

/-- The work has a result, stays in the world, and ends as `P` says. -/
def Returns (world : Machine σ κ → Prop) (x : ExceptT ε (Run σ κ) α) (s : Machine σ κ)
    (P : Except ε α → Machine σ κ → Prop) : Prop :=
  ∃ r s', x s = some (r, s') ∧ (world s' ∧ ∀ m, s.Has m → s'.Has m) ∧ P r s'

namespace Returns

variable {world : Machine σ κ → Prop} {s : Machine σ κ} {x : ExceptT ε (Run σ κ) α}
variable {f : α → ExceptT ε (Run σ κ) β} {P : Except ε α → Machine σ κ → Prop}
variable {Q : Except ε β → Machine σ κ → Prop}

protected theorem pure {a : α} (hw : world s) (h : P (.ok a) s) :
    Returns world (pure a : ExceptT ε (Run σ κ) α) s P := ⟨_, s, rfl, ⟨hw, fun _ => id⟩, h⟩

protected theorem throw {e : ε} (hw : world s) (h : P (.error e) s) :
    Returns world (throw e : ExceptT ε (Run σ κ) α) s P := ⟨_, s, rfl, ⟨hw, fun _ => id⟩, h⟩

theorem of_within (hx : Within (Machine.Stays world) x) (hw : world s)
    (h : ∃ r s', x s = some (r, s') ∧ P r s') : Returns world x s P := by
  obtain ⟨r, s', hrun, hp⟩ := h
  exact ⟨r, s', hrun, hx s r s' hrun hw, hp⟩

protected theorem bind (hx : Returns world x s P)
    (hok : ∀ a s₁, world s₁ → (∀ m, s.Has m → s₁.Has m) → P (.ok a) s₁ → Returns world (f a) s₁ Q)
    (herr : ∀ e s₁, P (.error e) s₁ → Q (.error e) s₁) : Returns world (x >>= f) s Q := by
  obtain ⟨r, s₁, hrun, ⟨hw, hgrow⟩, hp⟩ := hx
  cases r with
  | error e => exact ⟨_, s₁, throwing_bind.2 (.inr ⟨e, hrun, rfl⟩), ⟨hw, hgrow⟩, herr e s₁ hp⟩
  | ok a =>
    obtain ⟨r, s', hrun', ⟨hw', hgrow'⟩, hq⟩ := hok a s₁ hw hgrow hp
    exact ⟨r, s', throwing_bind.2 (.inl ⟨a, s₁, hrun, hrun'⟩),
      ⟨hw', fun m hm => hgrow' m (hgrow m hm)⟩, hq⟩

theorem mono {P' : Except ε α → Machine σ κ → Prop} (hx : Returns world x s P)
    (h : ∀ r s', P r s' → P' r s') : Returns world x s P' := by
  obtain ⟨r, s', hrun, hs, hp⟩ := hx
  exact ⟨r, s', hrun, hs, h r s' hp⟩

theorem step {a : α} {s₁ : Machine σ κ} (hx : x s = some (.ok a, s₁))
    (hs : Machine.Stays world s s₁) (hw : world s)
    (h : world s₁ → (∀ m, s.Has m → s₁.Has m) → Returns world (f a) s₁ Q) :
    Returns world (x >>= f) s Q := by
  obtain ⟨hw₁, hgrow⟩ := hs hw
  obtain ⟨r, s', hrun, ⟨hw', hgrow'⟩, hq⟩ := h hw₁ hgrow
  exact ⟨r, s', throwing_bind.2 (.inl ⟨a, s₁, hx, hrun⟩),
    ⟨hw', fun m hm => hgrow' m (hgrow m hm)⟩, hq⟩

theorem ofAct {wrap : Value → LinkError} {a : Act σ κ α} {P : Except Value α → Machine σ κ → Prop}
    {Q : Except LinkError α → Machine σ κ → Prop} (ha : Returns world a s P)
    (h : ∀ r s', P r s' → Q (r.mapError wrap) s') : Returns world (Linking.ofAct wrap a) s Q := by
  obtain ⟨r, s', hrun, hs, hp⟩ := ha
  exact ⟨_, s', Linking.ofAct_eq_some.2 ⟨r, hrun, rfl⟩, hs, h r s' hp⟩

theorem ofAct_bind {wrap : Value → LinkError} {a : Act σ κ α} {f : α → Linking σ κ β}
    {P : Except Value α → Machine σ κ → Prop} {Q : Except LinkError β → Machine σ κ → Prop}
    (ha : Returns world a s P)
    (hok : ∀ v s₁, world s₁ → (∀ m, s.Has m → s₁.Has m) → P (.ok v) s₁ → Returns world (f v) s₁ Q)
    (herr : ∀ e s₁, P (.error e) s₁ → Q (.error (wrap e)) s₁) :
    Returns world (Linking.ofAct wrap a >>= f) s Q := by
  have hx : Returns world (Linking.ofAct wrap a) s
      fun r s₁ => (∃ v, r = .ok v ∧ P (.ok v) s₁) ∨ ∃ e, r = .error (wrap e) ∧ P (.error e) s₁ := by
    refine ofAct ha fun r s₁ hp => ?_
    cases r with
    | ok v => exact .inl ⟨v, rfl, hp⟩
    | error e => exact .inr ⟨e, rfl, hp⟩
  refine .bind hx (fun v s₁ hw hgrow hv => ?_) fun e s₁ he => ?_
  · obtain ⟨_, hv, hp⟩ | ⟨_, hv, -⟩ := hv <;> cases hv
    exact hok v s₁ hw hgrow hp
  · obtain ⟨_, he, -⟩ | ⟨e, he, hp⟩ := he <;> cases he
    exact herr e s₁ hp

end Returns

namespace ExportGraph

variable {G : ExportGraph} {world : Machine σ κ → Prop} {host : Host σ κ} {s : Machine σ κ}
variable {m : ModuleId}

inductive Replies (G : ExportGraph) (m : ModuleId) (request : String) (s' : Machine σ κ) :
    Except ε ModuleId → Prop
  | answered {n : ModuleId} : G.target m request = some n → s'.Has n →
      Replies G m request s' (.ok n)
  | refused {e : ε} : G.target m request = none → Replies G m request s' (.error e)

theorem resolve_returns (h : G.Serves world host) (hw : world s) (hm : m ∈ G.modules)
    (hh : s.Has m) (request : String) :
    Returns world (host.resolve (.module m) request) s fun r s' => G.Replies m request s' r := by
  refine .of_within (h.resolve m request) hw ?_
  cases ht : G.target m request with
  | some n =>
    obtain ⟨s', hrun, hn⟩ := h.answers hw hm hh ht
    exact ⟨_, s', hrun, .answered ht hn⟩
  | none =>
    obtain ⟨e, s', hrun⟩ := h.refuses hw hm hh ht
    exact ⟨_, s', hrun, .refused ht⟩

end ExportGraph

end ModuleGraph
