import ModuleGraph.Proofs.Imports.Turns

/-! # The keepers of an import

The promise of a dynamic import is handed over from its ticket to the operation that finishes the
import, and from there to a reaction. In the end the job of that reaction settles it. -/

namespace ModuleGraph

variable {σ κ : Type} {owned : σ → PromiseId → Prop}

def noKeeper (_ : PromiseId) (_ : Keeper) : Prop := False

def oneKeeper (p : PromiseId) (k : Keeper) (p' : PromiseId) (k' : Keeper) : Prop :=
  p' = p ∧ k' = k

namespace Machine

variable {s s' : Machine σ κ} {p q : PromiseId} {r : ReactionId} {t : TicketId} {k : Keeper}
variable {m : ModuleId}

theorem trusty_initial {h : σ} (hh : ∀ p, ¬owned h p) :
    (initial h : Machine σ κ).Trusty owned noKeeper := by
  have hpromise : ∀ p, (initial h : Machine σ κ).promise p = default := fun p =>
    promise_of_not_made (Nat.not_lt_zero _)
  have hreaction : ∀ r, (initial h : Machine σ κ).reaction? r = none := fun r => rfl
  refine ⟨⟨fun p c hc => ?_, fun r j n hr => ?_, fun p r hr => ?_, fun r x hr => ?_⟩,
    fun p k hp => ?_⟩
  · cases c with
    | reaction r =>
      obtain ⟨_, _, hr, -⟩ := hc
      cases hr
    | body r =>
      obtain ⟨_, _, _, hr, -⟩ := hc
      cases hr
    | join j => exact absurd hc.1 (Nat.not_lt_zero _)
    | ticket t =>
      obtain ⟨_, hi, -⟩ := hc
      cases hi
    | follow q => cases hc
    | module m =>
      obtain ⟨_, hc, -⟩ | hk := hc
      · cases hc
      · cases hk
    | host => exact absurd hc (hh p)
  · cases hr
  · rw [Holds, hpromise] at hr
    cases hr
  · cases hr
  · obtain hp | ⟨t, i, -, hi, -⟩ := hp
    · exact hp.elim
    · cases hi

theorem Trusty.entrust (hs : s.Trusty owned noKeeper) (he : s.Entrusted owned p k) :
    s.Trusty owned (oneKeeper p k) where
  toGrounded := hs.toGrounded
  entrusted p' k' hp := by
    obtain ⟨rfl, rfl⟩ | hp := hp
    · exact he
    · exact hs.entrusted p' k' (.inr hp)

theorem Trusty.forget (hs : s.Trusty owned (oneKeeper p k)) : s.Trusty owned noKeeper where
  toGrounded := hs.toGrounded
  entrusted p' k' hp := hs.entrusted p' k' (.inr (hp.resolve_left id))

theorem Trusty.keeper (hs : s.Trusty owned (oneKeeper p k)) : s.Entrusted owned p k :=
  hs.entrusted p k (.inl ⟨rfl, rfl⟩)

theorem Trusty.ticket (hs : s.Trusty owned noKeeper) {i : PendingImport}
    (hi : s.import? t = some i) : s.Entrusted owned i.capability.promise (.ticket t) :=
  hs.entrusted _ _ (.inr ⟨t, i, rfl, hi, rfl⟩)

/-- The keeper has been taken away, and nothing has changed but that. -/
theorem Entrusted.handOver (he : s.Entrusted owned p k) (hs : s'.Trusty owned noKeeper)
    (hpromises : s'.promises = s.promises)
    (hclaims : ∀ c, s'.Claims owned p c → s.Claims owned p c)
    (hgone : ∀ c, k.claim? = some c → ¬s'.Claims owned p c) :
    s'.Trusty owned (oneKeeper p .operation) := by
  refine hs.entrust ⟨?_, ?_, fun c hc => ?_, trivial⟩
  · rw [Made, hpromises]
    exact he.made
  · rw [Undecided, promise, hpromises, ← promise]
    exact he.undecided
  · exact absurd hc (hgone c (he.sole c (hclaims c hc)))

theorem Harmless.claims_of_trusts {also : PromiseId → Keeper → Prop}
    (h : s.Harmless owned also s') (hp : s.Trusts also p k) (c : Claim)
    (hc : s'.Claims owned p c) : s.Claims owned p c :=
  (h.claims p c hc).resolve_right fun e => e.2 k hp

/-- The operation that finishes an import takes over from the ticket. -/
theorem Trusty.takeImport (hs : s.Trusty owned noKeeper) {i : PendingImport}
    (hi : s.import? t = some i) :
    (s.takeImport t).2.Trusty owned (oneKeeper i.capability.promise .operation) := by
  have htake := harmless_takeImport t (fun _ => id) hs
  refine (hs.ticket hi).handOver (htake.trusty hs) ?_
    (htake.claims_of_trusts (.inr ⟨t, i, rfl, hi, rfl⟩)) fun c hc hclaim => ?_
  · rw [Machine.takeImport, hi]
  · cases hc
    obtain ⟨i', hi', -⟩ := hclaim
    rw [Machine.takeImport, hi] at hi'
    rw [import?_taken, if_pos rfl] at hi'
    cases hi'

/-- The job of the reaction takes over. -/
theorem Trusty.takeFirst {x : Settlement} (hs : s.Trusty owned (oneKeeper p (.reaction r q m)))
    (hjobs : s.jobs.head? = some (.react r x)) :
    (s.takeFirst r).Trusty owned (oneKeeper p .operation) := by
  have htake := harmless_takeFirst hjobs (fun _ _ _ => id) hs.forget
  have hclaims : ∀ c, (s.takeFirst r).Claims owned p c → s.Claims owned p c :=
    claims_less (show (s.takeFirst r).modules = s.modules from rfl)
      (fun _ _ => reaction?_of_takeFirst) rfl (fun _ _ hi => hi)
      (fun _ => List.mem_of_mem_tail) rfl p
  refine hs.keeper.handOver (htake.trusty hs.forget) rfl hclaims fun c hc hclaim => ?_
  cases hc
  obtain ⟨reaction, c, hr, -⟩ := hclaim
  rw [reaction?_takeFirst, if_pos rfl] at hr
  cases hr

/-- The reaction that waits for the evaluation of the imported module takes over. -/
theorem Trusty.attach {track : Tracker σ} (ht : track.Discreet owned)
    (hs : s.Trusty owned (oneKeeper p .operation)) (hq : s.Made q) (m : ModuleId) :
    (s.attach track q ⟨.imported m, some ⟨p, true⟩⟩).Trusty owned
      (oneKeeper p (.reaction s.nextReaction q m)) := by
  have ha := attach_attached track s q ⟨.imported m, some ⟨p, true⟩⟩
  have howned : ∀ p', owned (s.attach track q ⟨.imported m, some ⟨p, true⟩⟩).host p' →
      owned s.host p' := fun p' => owned_of_aside ht (s.aside_attach q _)
  have hp := hs.keeper
  have hfree : ∀ c, ¬s.Claims owned p c := fun c hc => nomatch hp.sole c hc
  have hg : (s.attach track q ⟨.imported m, some ⟨p, true⟩⟩).Grounded owned := by
    refine ha.grounded hs.toGrounded howned (fun c hc => ?_) (fun _ _ _ e => nomatch e)
      fun _ _ e => nomatch e
    cases hc
    exact hp.made
  refine Trusty.entrust ⟨hg, fun p' k hk => ?_⟩ ⟨ha.made hp.made, ?_, fun c hc => ?_, ?_, ?_⟩
  · obtain hk | ⟨t, i, rfl, hi, rfl⟩ := hk
    · exact hk.elim
    rw [import?, ha.imports, ← import?] at hi
    have he := hs.forget.ticket hi
    have hne : i.capability.promise ≠ p := fun e => hfree (.ticket t) ⟨i, hi, e⟩
    refine ⟨ha.made he.made, ?_, fun c hc => ?_, ha.keeps he.kept⟩
    · rw [Undecided, ha.phase]
      exact he.undecided
    · obtain hc | ⟨-, d, hd, e⟩ | ⟨-, _, _, _, hd, -⟩ := ha.claims (howned _) hc
      · exact he.sole c hc
      · cases hd
        exact absurd e.symm hne
      · cases hd
  · rw [Undecided, ha.phase]
    exact hp.undecided
  · obtain hc | ⟨rfl, -⟩ | ⟨-, _, _, _, hd, -⟩ := ha.claims (howned _) hc
    · exact absurd hc (hfree c)
    · rfl
    · cases hd
  · rw [ha.reaction, if_pos rfl]
  · -- The new reaction is held by the promise of the evaluation, or queued with its settlement.
    have hheld : ∀ q', ¬s.Holds q' s.nextReaction := fun q' hr =>
      Nat.lt_irrefl _ (hs.held q' _ hr)
    have hqueued : ∀ x, Job.react s.nextReaction x ∉ s.jobs := fun x hr =>
      Nat.lt_irrefl _ (hs.queued _ x hr)
    obtain ⟨hpending, hjobs, hholds⟩ | ⟨x, hx, hjobs, hholds⟩ := ha.placed
    · refine ⟨fun q' hr => (((hholds q' _).1 hr).resolve_left (hheld q')).2.1, fun x hr => ?_,
        .inl ((hholds q _).2 (.inr ⟨hq, rfl, rfl⟩))⟩
      rw [hjobs] at hr
      exact absurd hr (hqueued x)
    · refine ⟨fun q' hr => absurd ((hholds q' _).1 hr) (hheld q'), fun y hr => ?_, .inr ⟨x, ?_⟩⟩
      · rw [hjobs] at hr
        obtain hr | hr := List.mem_append.1 hr
        · exact absurd hr (hqueued y)
        · cases List.mem_singleton.1 hr
          rwa [settlement?_of_phase (ha.phase q)]
      · rw [hjobs]
        exact List.mem_append_right _ (List.mem_singleton_self _)

end Machine

end ModuleGraph
