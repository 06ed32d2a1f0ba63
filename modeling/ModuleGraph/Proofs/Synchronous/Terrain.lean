import ModuleGraph.Proofs.Runs.Progress
import ModuleGraph.Proofs.Synchronous.Bodies

/-! # Where a walk has come to

A walk through the modules of a machine takes place while an evaluation goes on. The modules that it
has seen are those that the evaluation has changed: leaves that were evaluated, and modules that
are open or closed and have neither failed nor got a turn. All others stand as they did at the
machine where the walk started. -/

namespace ModuleGraph

open Relation

variable {σ κ : Type} {journal : σ → Journal} {owner : κ → ModuleId} {reserved : Set PromiseId}
variable {hosts : Set (Host σ κ)} {host : Host σ κ}

structure Cyclic.IsPlain (seen : List ModuleId) (c : Cyclic) : Prop where
  order : c.order = .unset
  error : c.error = none
  pending : c.pending = some 0
  hasAwait : c.hasAwait = false
  status : c.status = .evaluating ∨ c.status = .evaluated ∧ ∃ q ∈ seen, c.root = some q

theorem Cyclic.IsPlain.mono {seen seen' : List ModuleId} {c : Cyclic} (h : c.IsPlain seen)
    (hs : ∀ x ∈ seen, x ∈ seen') : c.IsPlain seen' :=
  { h with status := h.status.imp id fun ⟨he, q, hq, hr⟩ => ⟨he, q, hs q hq, hr⟩ }

theorem Cyclic.IsPlain.not_turn {seen : List ModuleId} {c : Cyclic}
    (h : c.IsPlain seen) : ¬c.order.isTurn := by
  rw [h.order]
  exact fun e => nomatch e

namespace Machine

variable {b s s' : Machine σ κ} {o : Focus} {m n x : ModuleId} {p : PromiseId}
variable {t t' : Traversal} {path : List Frame} {R : ModuleId → Prop} {seen : List ModuleId}
variable {J : Journal} {result : Except Value Unit}

/-! ## The terrain -/

/-- How a module that was evaluated has ended: with what it has thrown itself, or else with what its
cycle has thrown. -/
def past (s : Machine σ κ) (m : ModuleId) : Option (Except Value Unit) :=
  if s.status m = .evaluated then
    match (s.evaluationError? m).or (s.evaluationError? (s.cycleRoot m)) with
    | some e => some (.error e)
    | none => some (.ok ())
  else none

theorem past_of_status_ne (h : s.status m ≠ .evaluated) : s.past m = none := if_neg h

theorem past_of_leaf {q : PromiseId} {y : Settlement}
    (hm : (s.module m).kind.leaf? = some (.evaluated q))
    (hy : (s.promise q).settlement? = some y) : s.past m = some y.result := by
  have hk := ModuleKind.eq_of_leaf? hm
  have hst : s.status m = .evaluated := by
    rw [status, hk]
    rfl
  have hroot : s.cycleRoot m = m := by
    rw [cycleRoot, cycleRoot?, isCyclic_eq_false_iff.1 (not_isCyclic_of_leaf hm)]
    rfl
  rw [past, if_pos hst, hroot, evaluationError?, hk]
  dsimp only
  cases hq : s.promise q <;> rw [hq] at hy <;> cases hy <;> rfl

/-- A module that takes part in cycles and has failed itself. -/
theorem past_of_error (hm : s.isCyclic m) (hst : (s.cyclic m).status = .evaluated) {e : Value}
    (he : (s.cyclic m).error = some e) : s.past m = some (.error e) := by
  rw [past, if_pos (by rw [status_of_isCyclic hm, hst]), evaluationError?_of_isCyclic hm, he]
  rfl

/-- A module that takes part in cycles and has not failed itself. -/
theorem past_of_root (hm : s.isCyclic m) (hst : (s.cyclic m).status = .evaluated)
    (he : (s.cyclic m).error = none) {q : ModuleId} (hroot : (s.cyclic m).root = some q)
    (hq : s.isCyclic q) : s.past m = some (match (s.cyclic q).error with
      | some e => .error e
      | none => .ok ()) := by
  rw [past, if_pos (by rw [status_of_isCyclic hm, hst]), evaluationError?_of_isCyclic hm, he,
    cycleRoot_eq, hroot, Option.getD_some, evaluationError?_of_isCyclic hq]
  cases (s.cyclic q).error <;> rfl

def terrain (s : Machine σ κ) : Terrain := ⟨s.requested, s.past⟩

/-- No evaluation is going on, and what belongs to the region is linked, leads to modules of the
region only, as the journal tells, and has nothing to wait for. -/
structure Plain (J : Journal) (R : ModuleId → Prop) (s : Machine σ κ) : Prop where
  stable : J.Stable
  rest : ∀ x, (s.cyclic x).status ≠ .evaluating
  linked : ∀ x, R x → (s.status x).IsLinked
  synchronous : ∀ x, R x → (s.cyclic x).hasAwait = false
  still : ∀ x, R x → s.status x ≠ .evaluatingAsync
  answered : ∀ x, R x → ∀ r ∈ s.requested x, ∃ n, Entry.resolved x r n ∈ J ∧ R n
  rooted : ∀ x, R x → (s.cyclic x).status = .evaluated → (s.cyclic x).error = none →
    ∃ q, (s.cyclic x).root = some q ∧ (s.cyclic q).status = .evaluated ∧
      ((s.cyclic q).error = none → ¬(s.cyclic q).order.isTurn)
  kept : ∀ x q, R x → (s.module x).kind.leaf? = some (.evaluated q) →
    (s.promise q).settlement? ≠ none

theorem Plain.has (hp : b.Plain J R) (hx : R x) : b.Has x := has_of_isLinked (hp.linked x hx)

/-- What a module of the region requests belongs to the region. -/
theorem Plain.found (hp : b.Plain J R) (hm : R m) {request : String}
    (hr : request ∈ b.requested m) (hn : Entry.resolved m request n ∈ J) : R n := by
  obtain ⟨n', hn', hR⟩ := hp.answered m hm request hr
  rwa [hp.stable m request n n' hn hn']

/-! ## What a walk has changed -/

theorem leaf?_foldl_updateCyclic (s : Machine σ κ) (x : ModuleId) (f : Cyclic → Cyclic)
    (xs : List ModuleId) :
    ((xs.foldl (fun s x => s.updateCyclic x f) s).module x).kind.leaf? =
      (s.module x).kind.leaf? := by
  induction xs generalizing s with
  | nil => rfl
  | cons y rest ih => exact (ih _).trans (leaf?_updateCyclic s y x f)

structure Passed (b : Machine σ κ) (seen : List ModuleId) (s : Machine σ κ) (x : ModuleId) :
    Prop where
  has : b.Has x
  fresh : b.status x ≠ .evaluated
  leaf : b.isCyclic x = false → s.LeafDone x
  cyclic : b.isCyclic x → (s.cyclic x).IsPlain seen

structure Walked (b : Machine σ κ) (seen : List ModuleId) (s : Machine σ κ) : Prop where
  has : ∀ x, b.Has x → s.Has x
  isCyclic : ∀ x, b.Has x → s.isCyclic x = b.isCyclic x
  fields : ∀ x, b.Has x → x ∉ seen → ∃ c, s.cyclic x = { b.cyclic x with capability := c }
  leaf? : ∀ x, b.Has x → x ∉ seen → (s.module x).kind.leaf? = (b.module x).kind.leaf?
  settled : ∀ p y, (b.promise p).settlement? = some y → (s.promise p).settlement? = some y
  passed : ∀ x ∈ seen, b.Passed seen s x

namespace Walked

/-- A field of a module that was not seen, apart from who is to be told. -/
theorem field (h : b.Walked seen s) (hb : b.Has x) (hx : x ∉ seen) {β : Type} (φ : Cyclic → β)
    (hφ : ∀ d c, φ { d with capability := c } = φ d) : φ (s.cyclic x) = φ (b.cyclic x) := by
  obtain ⟨c, hc⟩ := h.fields x hb hx
  rw [hc, hφ]

theorem status_eq (h : b.Walked seen s) (hb : b.Has x) (hx : x ∉ seen) :
    (s.cyclic x).status = (b.cyclic x).status := h.field hb hx (·.status) fun _ _ => rfl

theorem mem_of_evaluating (h : b.Walked seen s) (hp : b.Plain J R) (hb : b.Has x)
    (hx : (s.cyclic x).status = .evaluating) : x ∈ seen := by
  by_contra hn
  rw [h.status_eq hb hn] at hx
  exact hp.rest x hx

theorem spares (h : b.Walked seen s) (hs : s.Spares s') : b.Walked seen s' := by
  have hcyclic : ∀ x, b.Has x → s'.cyclic x = s.cyclic x := fun x hx => by
    rw [cyclic, hs.cyclic? x (h.has x hx), ← cyclic]
  refine ⟨fun x hx => hs.has x (h.has x hx), fun x hx => ?_, fun x hx hn => ?_, fun x hx hn => ?_,
    fun p y hp => hs.settled p y (h.settled p y hp), fun x hx => ?_⟩
  · rw [Machine.isCyclic, hs.cyclic? x (h.has x hx)]
    exact h.isCyclic x hx
  · rw [hcyclic x hx]
    exact h.fields x hx hn
  · rw [hs.leaf? x (h.has x hx)]
    exact h.leaf? x hx hn
  · obtain ⟨hb, hfresh, hleaf, hcyc⟩ := h.passed x hx
    refine ⟨hb, hfresh, fun hl => ?_, fun hc => by rw [hcyclic x hb]; exact hcyc hc⟩
    obtain ⟨q, v, hk, hv⟩ := hleaf hl
    exact ⟨q, v, (hs.leaf? x (h.has x hb)).trans hk, hs.settled q _ hv⟩

/-- Fields of modules change that were seen, or are seen from now on. -/
theorem refields (h : b.Walked seen s) (hr : s.Refields s')
    (hleaf : ∀ x, (s'.module x).kind.leaf? = (s.module x).kind.leaf?) {seen' : List ModuleId}
    (hsub : ∀ x ∈ seen, x ∈ seen')
    (hsame : ∀ x, b.Has x → x ∉ seen' → s'.cyclic x = s.cyclic x)
    (hnew : ∀ x ∈ seen', x ∉ seen → b.Has x ∧ b.status x ≠ .evaluated ∧ b.isCyclic x)
    (hplain : ∀ x ∈ seen', b.isCyclic x → (s'.cyclic x).IsPlain seen') : b.Walked seen' s' where
  has x hx := (hr.has_iff x).2 (h.has x hx)
  isCyclic x hx := (hr.isCyclic x).trans (h.isCyclic x hx)
  fields x hx hn := by
    rw [hsame x hx hn]
    exact h.fields x hx fun e => hn (hsub x e)
  leaf? x hx hn := (hleaf x).trans (h.leaf? x hx fun e => hn (hsub x e))
  settled p y hp := by
    rw [hr.promise_eq]
    exact h.settled p y hp
  passed x hx := by
    by_cases hs : x ∈ seen
    · obtain ⟨hb, hfresh, hl, -⟩ := h.passed x hs
      refine ⟨hb, hfresh, fun hc => ?_, hplain x hx⟩
      obtain ⟨q, v, hk, hv⟩ := hl hc
      exact ⟨q, v, (hleaf x).trans hk, by rwa [hr.promise_eq]⟩
    · obtain ⟨hb, hfresh, hc⟩ := hnew x hx hs
      refine ⟨hb, hfresh, fun hl => ?_, hplain x hx⟩
      rw [hc] at hl
      cases hl

theorem isPlain (h : b.Walked seen s) (hx : x ∈ seen) (hc : b.isCyclic x) :
    (s.cyclic x).IsPlain seen := (h.passed x hx).cyclic hc

theorem enter (h : b.Walked seen s) (hp : b.Plain J R) (hm : R m) (hseen : m ∉ seen)
    (hcyc : b.isCyclic m) (hfresh : b.status m ≠ .evaluated)
    (hnew : (s.cyclic m).IsFresh) (visits : Nat) :
    b.Walked (m :: seen) (s.updateCyclic m fun c => Graph.opening c visits) := by
  have hb := hp.has hm
  have hfields := fields_updateCyclic (h.has m hb) ((h.isCyclic m hb).trans hcyc) fun c =>
    Graph.opening c visits
  have hr : s.Refields (s.updateCyclic m fun c => Graph.opening c visits) :=
    refields_updateCyclic s m fun _ => ⟨rfl, rfl⟩
  refine h.refields hr (fun x => leaf?_updateCyclic s m x _)
    (fun x hx => List.mem_cons_of_mem _ hx) (fun x _ hx => ?_) (fun x hx hn => ?_)
    fun x hx hc => ?_
  · rw [hfields, Function.update_of_ne (List.ne_of_not_mem_cons hx)]
  · obtain rfl := (List.mem_cons.1 hx).resolve_right hn
    exact ⟨hb, hfresh, hcyc⟩
  · rw [hfields]
    by_cases e : x = m
    · subst e
      rw [Function.update_self]
      refine ⟨hnew.2.2.1, hnew.1, rfl, ?_, .inl rfl⟩
      exact (h.field hb hseen (·.hasAwait) fun _ _ => rfl).trans (hp.synchronous x hm)
    · rw [Function.update_of_ne e]
      exact (h.isPlain ((List.mem_cons.1 hx).resolve_left e) hc).mono fun y hy =>
        List.mem_cons_of_mem _ hy

theorem reach (h : b.Walked seen s) (hm : m ∈ seen) (i : Option Nat) :
    b.Walked seen (s.updateCyclic m (·.reach i)) := by
  have hr : s.Refields (s.updateCyclic m (·.reach i)) :=
    refields_updateCyclic s m fun _ => ⟨rfl, rfl⟩
  have hfield : ∀ {β : Type} (φ : Cyclic → β), (∀ c : Cyclic, φ (c.reach i) = φ c) → ∀ x,
      φ ((s.updateCyclic m (·.reach i)).cyclic x) = φ (s.cyclic x) := fun φ hφ x =>
    field_updateCyclic φ hφ
  refine h.refields hr (fun x => leaf?_updateCyclic s m x _) (fun _ => id) (fun x _ hx => ?_)
    (fun x hx hn => (hn hx).elim) fun x hx hc => ?_
  · exact cyclic_updateCyclic_of_ne _ fun e => hx (e ▸ hm)
  · obtain ⟨ho, he, hpend, hw, hst⟩ := h.isPlain hx hc
    refine ⟨?_, ?_, ?_, ?_, hst.imp (fun e => ?_) fun ⟨e, q, hq, hroot⟩ => ⟨?_, q, hq, ?_⟩⟩
    · rwa [hfield (·.order) fun _ => rfl]
    · rwa [hfield (·.error) fun _ => rfl]
    · rwa [hfield (·.pending) fun _ => rfl]
    · rwa [hfield (·.hasAwait) fun _ => rfl]
    · rwa [hfield (·.status) fun _ => rfl]
    · rwa [hfield (·.status) fun _ => rfl]
    · rwa [hfield (·.root) fun _ => rfl]

/-- Modules that are being evaluated are closed together. -/
theorem close (h : b.Walked seen s) (hp : b.Plain J R) (hm : m ∈ seen) {xs : List ModuleId}
    (hxs : xs.Nodup) (hopen : ∀ x ∈ xs, (s.cyclic x).status = .evaluating) :
    b.Walked seen (xs.foldl (fun s x => s.updateCyclic x (Cyclic.close m)) s) := by
  have hfields := fields_foldl_updateCyclic (Cyclic.close m) hxs fun x hx =>
    have hi := Status.awake_of_evaluating (hopen x hx)
    ⟨has_of_awake hi, isCyclic_of_awake hi⟩
  have hr : s.Refields (xs.foldl (fun s x => s.updateCyclic x (Cyclic.close m)) s) :=
    Refields.foldl (f := Cyclic.close m) s (fun _ => ⟨rfl, rfl⟩) xs
  refine h.refields hr (fun x => ?_) (fun _ => id) (fun x hb hx => ?_)
    (fun x hx hn => (hn hx).elim) fun x hx hc => ?_
  · exact leaf?_foldl_updateCyclic s x _ xs
  · rw [hfields, if_neg fun hmem => hx (h.mem_of_evaluating hp hb (hopen x hmem))]
  · obtain ⟨ho, he, hpend, hw, hst⟩ := h.isPlain hx hc
    rw [hfields]
    split
    · refine ⟨ho, he, hpend, hw, .inr ⟨?_, m, hm, rfl⟩⟩
      rw [Cyclic.close, ho]
    · exact ⟨ho, he, hpend, hw, hst⟩

theorem keepPromise (h : b.Walked seen s) (hb : b.Has m)
    (hm : (s.module m).kind.leaf? = some .linked) (hfresh : b.status m ≠ .evaluated)
    {q : PromiseId} {v : Value} (hq : (s.promise q).settlement? = some (.fulfilled v)) :
    b.Walked (m :: seen) (s.keepPromise m q) := by
  have hcyclic : ∀ x, (s.keepPromise m q).cyclic? x = s.cyclic? x := fun x => by
    rw [Machine.keepPromise, cyclic?_eq, cyclic?_eq, kind_updateKind _ (has_of_leaf hm)]
    split
    · cases (s.module x).kind <;> rfl
    · rfl
  have hleaf := leaf?_keepPromise (p := q) hm
  refine ⟨fun x hx => ?_, fun x hx => ?_, fun x hx hn => ?_, fun x hx hn => ?_, h.settled,
    fun x hx => ?_⟩
  · exact (has_updateKind _).2 (h.has x hx)
  · rw [Machine.isCyclic, hcyclic]
    exact h.isCyclic x hx
  · rw [cyclic, hcyclic]
    exact h.fields x hx fun e => hn (List.mem_cons_of_mem _ e)
  · rw [hleaf, if_neg (List.ne_of_not_mem_cons hn)]
    exact h.leaf? x hx fun e => hn (List.mem_cons_of_mem _ e)
  · by_cases e : x = m
    · subst e
      refine ⟨hb, hfresh, fun _ => ⟨q, v, by rw [hleaf, if_pos rfl], hq⟩, fun hc => ?_⟩
      rw [← h.isCyclic x hb, not_isCyclic_of_leaf hm] at hc
      cases hc
    · obtain ⟨hb, hfresh, hl, hc⟩ := h.passed x ((List.mem_cons.1 hx).resolve_left e)
      refine ⟨hb, hfresh, fun hcyc => ?_, fun hcyc => ?_⟩
      · obtain ⟨q', v', hk, hv⟩ := hl hcyc
        exact ⟨q', v', by rw [hleaf, if_neg e, hk], hv⟩
      · rw [cyclic, hcyclic]
        exact (hc hcyc).mono fun y hy => List.mem_cons_of_mem _ hy

end Walked

end Machine

end ModuleGraph
