import ModuleGraph.Proofs.Synchronous.Terrain

/-! # Leaves on a walk

A leaf is evaluated where a walk comes to it first, and it keeps the promise that tells how this has
ended. Whoever requests the leaf takes over the error. -/

namespace ModuleGraph

open Relation

variable {σ κ : Type} {journal : σ → Journal} {owner : κ → ModuleId} {reserved : Set PromiseId}
variable {hosts : Set (Host σ κ)} {host : Host σ κ}

namespace Machine

variable {b s s' : Machine σ κ} {o : Focus} {m n x : ModuleId} {p : PromiseId}
variable {t t' : Traversal} {path : List Frame} {R : ModuleId → Prop} {seen : List ModuleId}
variable {J : Journal} {result : Except Value Unit} {errand : Errand}

/-- What was done is a piece of a walk, which can go on if nothing has thrown. -/
structure Walks (journal : σ → Journal) (host : Host σ κ) (b : Machine σ κ) (p : PromiseId)
    (seen : List ModuleId) (s : Machine σ κ) (errand : Errand) (result : Except Value Unit)
    (s' : Machine σ κ) : Prop where
  walk : ∃ seen', b.terrain.Walk ⟨journal s.host, seen⟩ errand result ⟨journal s'.host, seen'⟩ ∧
    (result = .ok () → b.Walked seen' s')
  silent : host.Abstains p → s.Silent p s'

theorem evaluateLeaf_of_kept {q q' : PromiseId}
    (hk : (s.module n).kind.leaf? = some (.evaluated q))
    (hrun : evaluateLeaf host n s = some (q', s')) : q' = q ∧ s' = s := by
  rw [evaluateLeaf, Run.view_bind, ModuleKind.eq_of_leaf? hk] at hrun
  cases hrun
  exact ⟨rfl, rfl⟩

/-- A module that requests a leaf takes over what the promise of the leaf tells. -/
theorem requireLeaf_told (hc : Conduct journal owner reserved hosts) (hh : host ∈ hosts)
    (hrun : requireLeaf host n s = some (result, s')) :
    ∃ q s₁, evaluateLeaf host n s = some (q, s₁) ∧ s₁.Unmoved journal s' ∧
      ∀ y, (s₁.promise q).settlement? = some y → result = y.result ∧
        (result = .ok () → s' = s₁) := by
  rw [requireLeaf, throwing_bind] at hrun
  obtain ⟨q, s₁, h₁, h₂⟩ | ⟨e, h₁, -⟩ := hrun
  · obtain ⟨q', hq, h₁⟩ := Act.ofRun_eq_some.1 h₁
    cases hq
    refine ⟨q, s₁, h₁, ?_⟩
    rw [Act.view_bind] at h₂
    cases hp : s₁.promise q with
    | pending rs resolved =>
      rw [hp] at h₂
      cases h₂
      exact ⟨.refl _, fun y hy => by cases hy⟩
    | fulfilled v =>
      rw [hp] at h₂
      cases h₂
      refine ⟨.refl _, fun y hy => ?_⟩
      cases hy
      exact ⟨rfl, fun _ => rfl⟩
    | rejected e handled =>
      rw [hp] at h₂
      cases h₂
      refine ⟨.markHandled (hc.track host hh) s₁ q, fun y hy => ?_⟩
      cases hy
      exact ⟨rfl, fun e => by cases e⟩
  · obtain ⟨q', hq, -⟩ := Act.ofRun_eq_some.1 h₁
    cases hq

/-- A leaf that keeps a promise is not evaluated again. -/
theorem requireLeaf_kept (hc : Conduct journal owner reserved hosts) (hh : host ∈ hosts)
    {q : PromiseId} (hk : (s.module n).kind.leaf? = some (.evaluated q)) {y : Settlement}
    (hy : (s.promise q).settlement? = some y)
    (hrun : requireLeaf host n s = some (result, s')) :
    result = y.result ∧ s.Unmoved journal s' ∧ (result = .ok () → s' = s) := by
  obtain ⟨q', s₁, h₁, hu, h₂⟩ := requireLeaf_told hc hh hrun
  obtain ⟨rfl, rfl⟩ := evaluateLeaf_of_kept hk h₁
  exact ⟨(h₂ y hy).1, hu, (h₂ y hy).2⟩

theorem requireLeaf_linked (hc : Conduct journal owner reserved hosts) (hh : host ∈ hosts)
    (hk : (s.module n).kind.leaf? = some .linked)
    (hrun : requireLeaf host n s = some (result, s')) :
    (∃ k, journal s'.host = journal s.host ++ k ∧ Runs n k result) ∧
      (host.Abstains p → s.Silent p s') ∧ (result = .ok () → ∃ q s₁ v, s.Spares s₁ ∧
        (s₁.module n).kind.leaf? = some .linked ∧
        (s₁.promise q).settlement? = some (.fulfilled v) ∧ s' = s₁.keepPromise n q) := by
  obtain ⟨q, s₁, h₁, hu, h₂⟩ := requireLeaf_told hc hh hrun
  obtain ⟨r, s₂, hr, rfl⟩ := evaluateLeaf_runs (p := p) hc hh hk h₁
  obtain ⟨k, hj, hruns⟩ := hr.noted
  have hkeep : s₂.Silent p (s₂.keepPromise n q) := .of_eq rfl rfl
  obtain ⟨hresult, hok⟩ := h₂ _ hr.told
  have hr' : result = r := by cases r <;> exact hresult
  rw [hr'] at hok ⊢
  refine ⟨⟨k, hu.journal.trans hj, hruns⟩,
    fun ha => ((hr.silent ha).trans hkeep).trans (.of_unmoved hu), fun hr₁ => ?_⟩
  have htold := hr.told
  rw [hr₁] at htold
  exact ⟨q, s₂, .undefined, hr.spares, hr.linked, htold, hok hr₁⟩

theorem requireLeaf_walks (hc : Conduct journal owner reserved hosts) (hh : host ∈ hosts)
    (hp : b.Plain J R) (h : b.Walked seen s) (hn : R n) (hleaf : s.isCyclic n = false)
    (hrun : requireLeaf host n s = some (result, s')) :
    b.Walks journal host p seen s (.module n) result s' := by
  have hb := hp.has hn
  have hbleaf : b.isCyclic n = false := (h.isCyclic n hb).symm.trans hleaf
  by_cases hseen : n ∈ seen
  · obtain ⟨q, v, hk, hv⟩ := (h.passed n hseen).leaf hbleaf
    obtain ⟨rfl, -, hs⟩ := requireLeaf_kept hc hh hk hv hrun
    rw [hs rfl]
    exact ⟨⟨seen, .again hseen, fun _ => h⟩, fun _ => .refl p s⟩
  have hlinked := hp.linked n hn
  have hsame := h.leaf? n hb hseen
  rw [status] at hlinked
  cases hk : (b.module n).kind with
  | source | foreign =>
    rw [isCyclic, cyclic?_eq, hk] at hbleaf
    cases hbleaf
  | leaf state =>
    have hbk : (b.module n).kind.leaf? = some state := by
      rw [hk]
      rfl
    rw [hbk] at hsame
    cases state with
    | unlinked =>
      rw [hk] at hlinked
      exact hlinked.elim
    | evaluated q =>
      obtain ⟨y, hy⟩ := Option.ne_none_iff_exists'.1 (hp.kept n q hn hbk)
      obtain ⟨rfl, hu, hs⟩ := requireLeaf_kept hc hh hsame (h.settled q y hy) hrun
      refine ⟨⟨seen, ?_, fun hok => hs hok ▸ h⟩, fun _ => .of_unmoved hu⟩
      rw [hu.journal]
      exact .before hseen (past_of_leaf hbk hy)
    | linked =>
      have hfresh : b.status n ≠ .evaluated := by
        rw [status, hk]
        rintro ⟨⟩
      obtain ⟨⟨k, hj, hruns⟩, hsilent, hok⟩ := requireLeaf_linked (p := p) hc hh hsame hrun
      have hnone : b.terrain.Walk ⟨journal s.host, n :: seen⟩ (.requests n (b.requested n)) (.ok ())
          ⟨journal s.host, n :: seen⟩ := by
        rw [requested_of_leaf hbleaf]
        exact .done
      refine ⟨⟨n :: seen, ?_, fun hr => ?_⟩, hsilent⟩
      · rw [hj]
        exact .body (w := ⟨journal s.host, seen⟩) hseen (past_of_status_ne hfresh) hnone hruns
      · obtain ⟨q, s₁, v, hsp, hl, hq, rfl⟩ := hok hr
        exact (h.spares hsp).keepPromise hb hl hfresh hq

end Machine

end ModuleGraph
