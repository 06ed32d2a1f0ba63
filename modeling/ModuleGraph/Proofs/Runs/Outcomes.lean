import ModuleGraph.Proofs.Runs.Progress

/-! # What evaluations come to

A body is started once, and only when all that its module requests outside of its own cycle is done.
Unless the host fulfils it, a promise of an evaluation is fulfilled only when the whole graph below
the module is done; and a module fails only with a value that it or a module below it has thrown. -/

namespace ModuleGraph

open Relation

variable {σ κ : Type} {journal : σ → Journal} {owner : κ → ModuleId} {reserved : Set PromiseId}
variable {hosts : Set (Host σ κ)} {host : Host σ κ}

namespace Machine

variable {s s' : Machine σ κ} {m x q : ModuleId} {p : PromiseId}

/-! ## Bodies -/

/-- **Bodies never run twice.** The body of a module, or of a leaf, is started at most once in a
run. -/
theorem body_started_once (hc : Conduct journal owner reserved hosts)
    (h : Reachable journal reserved hosts s) (m : ModuleId) : (journal s.host).starts m ≤ 1 := by
  have hrest := h.resting hc
  by_cases hm : s.isCyclic m
  · by_cases hi : (s.cyclic m).status.IsIdle
    · have h0 : (journal s.host).starts m = 0 := ((hrest.sound.shaped m).idle hi).2 hm
      omega
    · exact (hrest.sound.shaped m).once hi
  · by_cases h0 : (journal s.host).starts m = 0
    · omega
    · exact ((hrest.coherent.visited m h0).leaf (Bool.eq_false_of_not_eq_true hm)).1

theorem body_started_once_sample :
    (Sample.evaluated .completes).host.starts ⟨1⟩ = 1 ∧
      ∀ m, (Sample.evaluated .completes).host.starts m ≤ 1 :=
  ⟨rfl, body_started_once ((sample .completes).conduct 4 Set.univ)
    (Sample.reachable_evaluated Set.univ rfl rfl)⟩

/-- **Dependencies complete first.** At the moment when the body of a module that takes part in
cycles is started, the host has answered all of its requests. Each leaf that it requests was
evaluated without an error, and each other module that it requests and that is not in the same cycle
has run its body to the end, and the root of its cycle was evaluated without an error. -/
theorem dependencies_complete_first (hc : Conduct journal owner reserved hosts)
    (h : Reachable journal reserved hosts s) (hstable : (journal s.host).Stable) {j₁ j₂ : Journal}
    {before : Machine Unit Unit} (hj : journal s.host = j₁ ++ .started m before :: j₂)
    (hm : before.isCyclic m) :
    (∀ r ∈ before.requested m, ∃ n, Entry.resolved m r n ∈ j₁) ∧
      ∀ n, before.Requests j₁ m n →
        (before.isCyclic n = false → before.LeafDone n) ∧
        (before.isCyclic n → ¬ReflTransGen (before.Requests j₁) n m →
          Entry.ended n ∈ j₁ ∧ ∃ q, before.cycleRoot? n = some q ∧ before.status q = .evaluated ∧
            before.evaluationError? q = none) := by
  have hprefix : (j₁ ++ [.started m before]) <+: journal s.host :=
    ⟨j₂, by rw [hj, List.append_assoc, List.singleton_append]⟩
  have hprepared := (h.resting hc).coherent.logged j₁ m before hprefix hm
  refine ⟨fun r hr => (hprepared r hr).imp fun n hn => hn.1, fun n ⟨r, hr, hn⟩ => ?_⟩
  -- The module that the host gave for the request is the only one that it gave.
  obtain ⟨n', hn', hleaf, hcycle⟩ := hprepared r hr
  have hmem : ∀ e ∈ j₁, e ∈ journal s.host := fun e he => by
    rw [hj]
    exact List.mem_append_left _ he
  obtain rfl := hstable m r n n' (hmem _ hn) (hmem _ hn')
  refine ⟨hleaf, fun hcyc hout => ?_⟩
  obtain ⟨hended, q, hq, hqs, hqe⟩ := (hcycle hcyc).resolve_right hout
  have hqc : before.isCyclic q := isCyclic_of_awake (by rw [hqs]; exact id)
  exact ⟨hended, q, hq, by rw [status_of_isCyclic hqc, hqs],
    by rw [evaluationError?_of_isCyclic hqc, hqe]⟩

/-- When the body of module `0` of the short run was started, the body of module `1` had come to its
end, and the leaf was evaluated. -/
theorem dependencies_complete_first_sample :
    (Sample.evaluated .completes).host = (Sample.evaluated .completes).host.take 8 ++
        .started ⟨0⟩ Sample.beforeRoot :: (Sample.evaluated .completes).host.drop 9 ∧
      Sample.beforeRoot.LeafDone ⟨2⟩ ∧
      Entry.ended ⟨1⟩ ∈ (Sample.evaluated .completes).host.take 8 := by
  have hj : (Sample.evaluated .completes).host = (Sample.evaluated .completes).host.take 8 ++
      .started ⟨0⟩ Sample.beforeRoot :: (Sample.evaluated .completes).host.drop 9 := rfl
  obtain ⟨-, hdone⟩ := dependencies_complete_first ((sample .completes).conduct 4 Set.univ)
    (Sample.reachable_evaluated Set.univ rfl rfl) (Sample.stable_of_all .completes rfl) hj rfl
  have hb : Sample.beforeRoot.Requests ((Sample.evaluated .completes).host.take 8) ⟨0⟩ ⟨1⟩ :=
    ⟨"b", List.mem_cons_self, List.mem_cons_self⟩
  have hc : Sample.beforeRoot.Requests ((Sample.evaluated .completes).host.take 8) ⟨0⟩ ⟨2⟩ :=
    ⟨"c", List.mem_cons_of_mem _ List.mem_cons_self, List.mem_cons_of_mem _ List.mem_cons_self⟩
  have hout : ¬ReflTransGen (Sample.beforeRoot.Requests ((Sample.evaluated .completes).host.take 8))
      ⟨1⟩ ⟨0⟩ := fun h => by
    obtain e | ⟨n, ⟨r, hr, -⟩, -⟩ := h.cases_head
    · cases e
    · have hnone : Sample.beforeRoot.requested ⟨1⟩ = [] := rfl
      rw [hnone] at hr
      cases hr
  exact ⟨hj, (hdone _ hc).1 rfl, ((hdone _ hb).2 rfl hout).1⟩

/-! ## Promises of evaluations -/

/-- A leaf that was evaluated without an error shows so. -/
theorem LeafDone.status (h : s.LeafDone m) :
    s.status m = .evaluated ∧ s.evaluationError? m = none := by
  obtain ⟨p, v, hleaf, hp⟩ := h
  rw [Machine.status, evaluationError?]
  cases hk : (s.module m).kind with
  | source => rw [hk] at hleaf; cases hleaf
  | foreign => rw [hk] at hleaf; cases hleaf
  | leaf state =>
    rw [hk] at hleaf
    cases hleaf
    refine ⟨rfl, ?_⟩
    dsimp only
    cases hs : s.promise p with
    | rejected => rw [hs] at hp; cases hp
    | pending | fulfilled => rfl

/-- What it means that a module is done: it was evaluated without an error, its body was started
once and has come to its end. -/
structure Finished (journal : σ → Journal) (s : Machine σ κ) (m : ModuleId) : Prop where
  status : s.status m = .evaluated
  error : s.evaluationError? m = none
  starts : s.isCyclic m → (journal s.host).starts m = 1
  ended : s.isCyclic m → Entry.ended m ∈ journal s.host
  /-- The host has answered all requests. -/
  answered : ∀ r ∈ s.requested m, ∃ n, Entry.resolved m r n ∈ journal s.host

/-- A reserved promise that has answered for the evaluation of a module and is fulfilled belongs to
a cycle that is complete. -/
theorem Resting.done_of_fulfilled {known : Finding → Prop}
    (h : s.Resting journal owner reserved known fun _ => False) (ha : s.AnswersFor m p)
    (hres : p ∈ reserved) (hm : s.isCyclic m) {v : Value} (hp : s.promise p = .fulfilled v) :
    (s.graph journal .rest).Done m := by
  have hsettled : (s.promise p).settlement? = some (.fulfilled v) := by rw [hp]; rfl
  obtain ⟨y, hy, hrejected⟩ | ⟨q, c, hcap, rfl, hqm⟩ := ha
  · obtain ⟨e, rfl⟩ := hrejected hm
    rw [hsettled] at hy
    cases hy
  · have ht := h.coherent.tells q c hcap hres
    have hl : ¬(Focus.rest known fun _ => False).IsLate q := fun ⟨_, hl⟩ => nomatch hl
    have hqs : (s.cyclic q).status = .evaluated := by_contra fun hs => by
      have hu := ht.waiting (.inr hs)
      rw [Undecided, hp] at hu
      cases hu
    have hqe : (s.cyclic q).error = none := by
      by_contra hne
      obtain ⟨e, he⟩ := Option.ne_none_iff_exists'.1 hne
      rw [ht.failed hl hqs e he] at hsettled
      cases hsettled
    have hroot : (s.cyclic q).root = some q :=
      (h.coherent.own q c hcap).resolve_left ((h.sound.shaped q).complete hqs hqe).1
    refine .inr ⟨q, hqm.elim (fun e => ?_) id, hqs, hqe⟩
    rw [← e]
    exact hroot

/-- What is done and all that it requests. -/
theorem finished_of_done (hs : (s.graph journal .rest).Sound)
    (hd : (s.graph journal .rest).Done x) :
    s.Finished journal x ∧ ∀ r ∈ s.requested x, ∃ n, Entry.resolved x r n ∈ journal s.host ∧
      (s.graph journal .rest).Done n := by
  obtain hleaf | ⟨q, hq, hcomplete⟩ := hd
  · have hl : s.LeafDone x := hleaf
    have hc := not_isCyclic_of_leafDone hl
    have hnone : s.requested x = [] := requested_of_leaf hc
    refine ⟨⟨hl.status.1, hl.status.2, fun h => ?_, fun h => ?_, fun r hr => ?_⟩, fun r hr => ?_⟩
    · rw [hc] at h
      cases h
    · rw [hc] at h
      cases h
    · rw [hnone] at hr
      cases hr
    · rw [hnone] at hr
      cases hr
  · obtain ⟨hxs, hxe⟩ := hs.complete_member hcomplete _ x rfl hq
    have hxs' : (s.cyclic x).status = .evaluated := hxs
    have hc : s.isCyclic x := isCyclic_of_awake (Status.awake_of_evaluated hxs')
    obtain ⟨-, -, hstarts, hended⟩ := (hs.shaped x).complete hxs hxe
    have hrequests : ∀ r ∈ s.requested x, ∃ n, Entry.resolved x r n ∈ journal s.host ∧
        (s.graph journal .rest).Done n := fun r hr => by
      rw [requested_eq] at hr
      exact hs.done_of_request hcomplete hq hr
    exact ⟨⟨by rw [status_of_isCyclic hc, hxs'], by rw [evaluationError?_of_isCyclic hc]; exact hxe,
      fun _ => hstarts, fun _ => hended, fun r hr => (hrequests r hr).imp fun n hn => hn.1⟩,
        hrequests⟩

/-- **A fulfilled evaluation means that the whole graph is done.** If a reserved promise that an
evaluation of `m` has returned is fulfilled, then every module that `m` requests, directly or not,
was evaluated without an error, and the body of each one that takes part in cycles was started once
and has come to its end. -/
theorem fulfilled_evaluation_is_done (hc : Conduct journal owner reserved hosts)
    (h : s.Returned journal reserved hosts m p) (hres : p ∈ reserved)
    (hstable : (journal s.host).Stable) (hm : s.isCyclic m) {v : Value}
    (hp : s.promise p = .fulfilled v) {x : ModuleId}
    (hx : ReflTransGen (s.Requests (journal s.host)) m x) : s.Finished journal x := by
  have hrest := h.resting hc
  have hdone : (s.graph journal .rest).Done x := by
    induction hx with
    | refl => exact hrest.done_of_fulfilled (h.answersFor hc) hres hm hp
    | @tail y z _ hstep ih =>
      obtain ⟨r, hr, hz⟩ := hstep
      obtain ⟨n, hn, hd⟩ := (finished_of_done hrest.sound ih).2 r hr
      rwa [hstable y r z n hz hn]
  exact (finished_of_done hrest.sound hdone).1

/-- The promise of the short run is fulfilled, so the leaf and module `1` are done. -/
theorem fulfilled_evaluation_is_done_sample :
    (Sample.evaluated .completes).promise ⟨0⟩ = .fulfilled .undefined ∧
      (Sample.evaluated .completes).Finished id ⟨1⟩ ∧
      (Sample.evaluated .completes).Finished id ⟨2⟩ := by
  have hreturned :
      (Sample.evaluated .completes).Returned id Set.univ {Sample.host .completes} ⟨0⟩ ⟨0⟩ :=
    ⟨_, _, _, rfl, Sample.reachable_linked Set.univ rfl, Sample.has_linked rfl, rfl, .refl⟩
  have hb : (Sample.evaluated .completes).Requests (Sample.evaluated .completes).host ⟨0⟩ ⟨1⟩ :=
    ⟨"b", List.mem_cons_self, List.mem_cons_self⟩
  have hc : (Sample.evaluated .completes).Requests (Sample.evaluated .completes).host ⟨0⟩ ⟨2⟩ :=
    ⟨"c", List.mem_cons_of_mem _ List.mem_cons_self, List.mem_cons_of_mem _ List.mem_cons_self⟩
  exact ⟨rfl,
    fulfilled_evaluation_is_done ((sample .completes).conduct 4 Set.univ) hreturned
      (Set.mem_univ _) (Sample.stable_of_all .completes rfl) rfl rfl (.single hb),
    fulfilled_evaluation_is_done ((sample .completes).conduct 4 Set.univ) hreturned
      (Set.mem_univ _) (Sample.stable_of_all .completes rfl) rfl rfl (.single hc)⟩

end Machine

/-- The host fulfils the promise of the evaluation while the module waits. -/
def Lone.fulfilled : Machine Journal ModuleId :=
  waiting.settle Lone.host.track ⟨⟨0⟩, true⟩ (.ok .undefined)

/-- A promise of an evaluation that the host has fulfilled itself says nothing about the module. -/
theorem host_may_fulfil_evaluation :
    Conduct id id ∅ {Lone.host} ∧ Lone.fulfilled.Returned id ∅ {Lone.host} ⟨0⟩ ⟨0⟩ ∧
      Journal.Stable Lone.fulfilled.host ∧ Lone.fulfilled.isCyclic ⟨0⟩ ∧
      Lone.fulfilled.promise ⟨0⟩ = .fulfilled .undefined ∧
      Lone.fulfilled.status ⟨0⟩ = .evaluatingAsync := by
  refine ⟨lone.conduct 2 ∅, ?_, Lone.stable_of_all (by decide), by decide, rfl, by decide⟩
  have hsettle : Machine.Call id ∅ {Lone.host} Lone.waiting Lone.fulfilled :=
    .settle _ _ rfl (Lone.maySettle (show 0 < 2 by decide) rfl)
  exact ⟨_, _, _, rfl, Lone.reachable_linked ∅, Lone.has_linked, Lone.evaluate_linked,
    .single (.move (.call hsettle))⟩

namespace Machine

variable {s : Machine σ κ} {m : ModuleId}

/-! ## Errors -/

/-- **Error provenance.** If a module that takes part in cycles has failed, then it requests,
directly or not, a module that has thrown exactly the value that it has failed with. -/
theorem error_provenance (hc : Conduct journal owner reserved hosts)
    (h : Reachable journal reserved hosts s) (hstable : (journal s.host).Stable)
    (hm : s.isCyclic m) {e : Value} (he : s.evaluationError? m = some e) :
    ∃ d, ReflTransGen (s.Requests (journal s.host)) m d ∧ s.Threw journal d e := by
  rw [evaluationError?_of_isCyclic hm] at he
  obtain ⟨d, hd, ht⟩ := ((h.resting hc).sound.shaped m).blamed e he
  rw [requests_graph] at hd
  exact ⟨d, hd, ht hstable⟩

/-- When module `1` throws then module `0` fails with the value that it has thrown. -/
theorem error_provenance_sample :
    (Sample.evaluated (.throws (.boolean true))).evaluationError? ⟨0⟩ = some (.boolean true) ∧
      ∃ d, ReflTransGen ((Sample.evaluated (.throws (.boolean true))).Requests
          (Sample.evaluated (.throws (.boolean true))).host) ⟨0⟩ d ∧
        (Sample.evaluated (.throws (.boolean true))).Threw id d (.boolean true) :=
  ⟨rfl, error_provenance ((sample (.throws (.boolean true))).conduct 4 Set.univ)
    (Sample.reachable_evaluated Set.univ rfl rfl) (Sample.stable_of_all .completes rfl) rfl rfl⟩

end Machine

end ModuleGraph
