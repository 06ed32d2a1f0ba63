import ModuleGraph.Proofs.Histories.Dealings

/-! # Joint waits

A joint wait has one reaction for each of its promises, next to each other. Nobody else has such
reactions, and each runs once. So the reactions that have run tell what the wait has collected. -/

namespace ModuleGraph

variable {σ κ α : Type}

/-! ## What reactions have run with -/

def valueRun (os : List Occurrence) (r : ReactionId) : Option Value :=
  (runsIn (incidentsIn os)).findSome? fun
    | (r', .fulfilled v) => if r' = r then some v else none
    | (_, .rejected _) => none

def firstReason (os : List Occurrence) (first count : Nat) : Option Value :=
  (runsIn (incidentsIn os)).findSome? fun
    | (r, .rejected e) => if first ≤ r.index ∧ r.index < first + count then some e else none
    | (_, .fulfilled _) => none

section Runs

variable {os os' : List Occurrence} {r : ReactionId} {x : Settlement} {v e : Value}
variable {first count : Nat}

theorem runsIn_incidents (os os' : List Occurrence) :
    runsIn (incidentsIn (os ++ os')) = runsIn (incidentsIn os) ++ runsIn (incidentsIn os') := by
  rw [incidentsIn_append, runsIn_append]

theorem valueRun_append (os os' : List Occurrence) (r : ReactionId) :
    valueRun (os ++ os') r = (valueRun os r).or (valueRun os' r) := by
  rw [valueRun, runsIn_incidents, List.findSome?_append, valueRun, valueRun]

theorem firstReason_append (os os' : List Occurrence) (first count : Nat) :
    firstReason (os ++ os') first count =
      (firstReason os first count).or (firstReason os' first count) := by
  rw [firstReason, runsIn_incidents, List.findSome?_append, firstReason, firstReason]

theorem mem_runsIn_of_valueRun (h : valueRun os r = some v) :
    (r, .fulfilled v) ∈ runsIn (incidentsIn os) := by
  obtain ⟨⟨r', x⟩, hmem, hx⟩ := List.exists_of_findSome?_eq_some h
  cases x with
  | rejected e => cases hx
  | fulfilled w =>
    dsimp only at hx
    split at hx
    · rename_i e
      cases hx
      exact e ▸ hmem
    · cases hx

theorem valueRun_eq_none (h : ∀ x, (r, x) ∉ runsIn (incidentsIn os)) : valueRun os r = none := by
  by_contra hne
  obtain ⟨v, hv⟩ := Option.ne_none_iff_exists'.1 hne
  exact h _ (mem_runsIn_of_valueRun hv)

theorem valueRun_ne_none (h : (r, .fulfilled v) ∈ runsIn (incidentsIn os)) :
    valueRun os r ≠ none := by
  intro hnone
  have hx := List.findSome?_eq_none_iff.1 hnone _ h
  dsimp only at hx
  rw [if_pos rfl] at hx
  cases hx

theorem valueRun_of_single {r' : ReactionId} (h : runsIn (incidentsIn os) = [(r', .fulfilled v)]) :
    valueRun os r = if r' = r then some v else none := by
  rw [valueRun, h, List.findSome?_singleton]

theorem valueRun_of_rejected {r' : ReactionId}
    (h : runsIn (incidentsIn os) = [(r', .rejected e)]) : valueRun os r = none := by
  rw [valueRun, h, List.findSome?_singleton]

theorem mem_runsIn_of_firstReason (h : firstReason os first count = some e) :
    ∃ k < count, (⟨first + k⟩, .rejected e) ∈ runsIn (incidentsIn os) := by
  obtain ⟨⟨⟨i⟩, x⟩, hmem, hx⟩ := List.exists_of_findSome?_eq_some h
  cases x with
  | fulfilled v => cases hx
  | rejected w =>
    dsimp only at hx
    split at hx
    · rename_i hi
      cases hx
      exact ⟨i - first, by omega, by rwa [Nat.add_sub_cancel' hi.1]⟩
    · cases hx

theorem firstReason_eq_none
    (h : ∀ k < count, ∀ e, (⟨first + k⟩, .rejected e) ∉ runsIn (incidentsIn os)) :
    firstReason os first count = none := by
  by_contra hne
  obtain ⟨e, he⟩ := Option.ne_none_iff_exists'.1 hne
  obtain ⟨k, hk, hmem⟩ := mem_runsIn_of_firstReason he
  exact h k hk e hmem

theorem firstReason_ne_none {k : Nat} (hk : k < count)
    (h : (⟨first + k⟩, .rejected e) ∈ runsIn (incidentsIn os)) :
    firstReason os first count ≠ none := by
  intro hnone
  have hx := List.findSome?_eq_none_iff.1 hnone _ h
  dsimp only at hx
  rw [if_pos (by omega)] at hx
  cases hx

theorem firstReason_of_single {k : Nat} (hk : k < count)
    (h : runsIn (incidentsIn os) = [(⟨first + k⟩, .rejected e)]) :
    firstReason os first count = some e := by
  rw [firstReason, h, List.findSome?_singleton]
  exact if_pos (by dsimp only; omega)

end Runs

namespace Machine

variable {track : Tracker σ} {ledger : σ → α} {owned : σ → PromiseId → Prop}
variable {s₀ s s' : Machine σ κ} {p : PromiseId} {r : ReactionId} {j : JoinId}
variable {os : List Occurrence} {es : List Incident} {n : Nat}

/-! ## What a stride does to a joint wait -/

theorem join_store (s : Machine σ κ) (i j : JoinId) (k : Nat) (v : Value) :
    (s.store i k v).join j = if i = j ∧ i.index < s.joins.size then
      { s.join i with
        remaining := (s.join i).remaining - 1
        values := (s.join i).values.set k v } else s.join j := by
  simp only [join, store, Array.getD_eq_getD_getElem?, Array.getElem?_setIfInBounds]
  by_cases e : i = j
  · subst e
    by_cases hlt : i.index < s.joins.size <;> simp [hlt]
  · have hne : i.index ≠ j.index := fun h => e (by cases i; cases j; cases h; rfl)
    simp [e, hne]

theorem runsIn_concluding (s s' : Machine σ κ) (p : PromiseId) :
    runsIn (incidentsIn (s.concluding s' p)) = [] := by
  rw [concluding, incidentsIn_map, settling]
  split <;> rfl

theorem joins_all (track : Tracker σ) (s₀ : Machine σ κ) {ps : List PromiseId} (hps : ps ≠ []) :
    (s₀.all track ps).2.joins = s₀.joins.push
      { remaining := ps.length
        values := List.replicate ps.length .undefined
        capability := ⟨s₀.nextPromise, true⟩ } := by
  rw [all_of_ne_nil track s₀ hps]
  exact joins_attachJoined track ps _ _ _

theorem runsIn_attachingAll (made next : Nat) (ps : List PromiseId) :
    runsIn (attachingAll made next ps) = [] := by
  induction ps generalizing next with
  | nil => rfl
  | cons q rest ih =>
    refine (List.filterMap_cons_none ?_).trans (ih (next + 1))
    split <;> rfl

/-- What a stride does to a joint wait: nothing, or it runs one of its reactions. -/
inductive Bears (track : Tracker σ) (s s' : Machine σ κ) (os : List Occurrence) (j : JoinId) : Prop
  | apart : s'.join j = s.join j →
      (∀ r x, (r, x) ∈ runsIn (incidentsIn os) → s.jobs.head? = some (.react r x) ∧
        ∀ k, s.reaction? r ≠ some ⟨.joined j k, none⟩) → Bears track s s' os j
  | collects {r : ReactionId} {v : Value} {k : Nat} :
      s.jobs.head? = some (.react r (.fulfilled v)) →
      s.reaction? r = some ⟨.joined j k, none⟩ → (s.join j).remaining - 1 ≠ 0 →
      runsIn (incidentsIn os) = [(r, .fulfilled v)] → s' = (s.takeFirst r).store j k v →
        Bears track s s' os j
  | completes {r : ReactionId} {v : Value} {k : Nat} :
      s.jobs.head? = some (.react r (.fulfilled v)) →
      s.reaction? r = some ⟨.joined j k, none⟩ → (s.join j).remaining - 1 = 0 →
      runsIn (incidentsIn os) = [(r, .fulfilled v)] →
      s' = ((s.takeFirst r).fill j k v).settle track (s.join j).capability
        (.ok (.object ⟨s.objects.size⟩)) → Bears track s s' os j
  | givesUp {r : ReactionId} {e : Value} {k : Nat} :
      s.jobs.head? = some (.react r (.rejected e)) →
      s.reaction? r = some ⟨.joined j k, none⟩ → runsIn (incidentsIn os) = [(r, .rejected e)] →
      s' = (s.takeFirst r).settle track (s.join j).capability (.error e) → Bears track s s' os j

/-- Almost all strides run no reaction at all. -/
theorem Bears.idle (hjoin : s'.join j = s.join j) (hruns : runsIn (incidentsIn os) = []) :
    s.Bears track s' os j :=
  .apart hjoin fun r x hr => by
    rw [hruns] at hr
    cases hr

theorem Bears.other {x : Settlement} {reaction : Reaction κ} (hjoin : s'.join j = s.join j)
    (hruns : runsIn (incidentsIn os) = [(r, x)]) (hjobs : s.jobs.head? = some (.react r x))
    (hr : s.reaction? r = some reaction) (hne : ∀ k, reaction ≠ ⟨.joined j k, none⟩) :
    s.Bears track s' os j :=
  .apart hjoin fun r x hmem => by
    rw [hruns, List.mem_singleton] at hmem
    cases hmem
    exact ⟨hjobs, fun k hr' => hne k (Option.some.inj (hr.symm.trans hr'))⟩

theorem runsIn_answering (s s' : Machine σ κ) (r : ReactionId) (x : Settlement) (c : Capability)
    (result : Except Value Value) : runsIn (incidentsIn (.incident (.ran r x) ::
      .answered c result :: s.concluding s' c.promise)) = [(r, x)] :=
  congrArg (_ :: ·) (runsIn_concluding ..)

theorem Stride.bears (h : s.Stride track ledger os s') (hj : j.index < s.joins.size) :
    s.Bears track s' os j := by
  cases h with
  | beside _ hjoins => exact .idle (join_of_joins hjoins j) rfl
  | newPromise | newFulfilled | takeJob | queueImport => exact .idle rfl rfl
  | attach p =>
    refine .idle (join_of_joins (attach_attached track s p _).joins j) ?_
    rw [attaching]
    split <;> rfl
  | call result | answer result =>
    exact .idle (join_of_joins (joins_settle track s _ result) j) (runsIn_concluding ..)
  | markHandled p =>
    refine .idle (join_of_joins (joins_markHandled track s p) j) ?_
    rw [incidentsIn_map, consuming]
    split <;> rfl
  | @all ps hne =>
    refine .idle (join_push (joins_all track s hne) hj) ?_
    rw [incidentsIn, List.filterMap_cons_none rfl, ← incidentsIn, incidentsIn_map,
      runsIn_attachingAll]
  | @enter r x hjobs hplain =>
    refine .apart rfl fun r' x' hmem => ?_
    cases List.mem_singleton.1 hmem
    exact ⟨hjobs, fun k hr => (hplain _ hr).alone j k rfl⟩
  | @passOn r x p hjobs hr =>
    exact .other (join_of_joins (joins_settle track (s.takeFirst r) ⟨p, false⟩ x.toExcept) j)
      (congrArg (_ :: ·) (runsIn_concluding ..)) hjobs hr fun k e => by cases e
  | @collect r v i k hjobs hr hmore =>
    by_cases e : i = j
    · subst e
      exact .collects hjobs hr hmore rfl rfl
    · refine .other ((join_store (s.takeFirst r) i j k v).trans (if_neg fun h => e h.1)) rfl
        hjobs hr fun k e' => e ?_
      cases e'
      rfl
  | @complete r v _ i k _ hjobs hr hlast hc _ ho =>
    subst hc ho
    by_cases e : i = j
    · subst e
      exact .completes hjobs hr hlast (runsIn_answering ..) rfl
    · refine .other ((join_of_joins (joins_settle track _ _ _) j).trans
        ((join_store (s.takeFirst r) i j k v).trans (if_neg fun h => e h.1)))
        (runsIn_answering ..) hjobs hr fun k e' => e ?_
      cases e'
      rfl
  | @giveUp r e i k _ hjobs hr hc =>
    subst hc
    by_cases e : i = j
    · subst e
      exact .givesUp hjobs hr (runsIn_answering ..) rfl
    · refine .other (join_of_joins (joins_settle track (s.takeFirst r) _ _) j)
        (runsIn_answering ..) hjobs hr fun k e' => e ?_
      cases e'
      rfl
  | adopt =>
    refine .idle (join_of_joins (attach_attached track _ _ _).joins j) ?_
    rw [attaching]
    split <;> rfl

/-! ## The reactions of a joint wait -/

def nextJoin (s : Machine σ κ) : JoinId := ⟨s.joins.size⟩

def reactionAt (s : Machine σ κ) (k : Nat) : ReactionId := ⟨s.reactions.size + k⟩

/-- A joint wait for so many promises that was made at the machine `s₀`: nobody else answers for its
promise, and nobody else has reactions for it. -/
structure Waits (s₀ : Machine σ κ) (n : Nat) (s : Machine σ κ) : Prop where
  listed : s₀.nextJoin.index < s.joins.size
  made : s.Made s₀.nextPromise
  capability : (s.join s₀.nextJoin).capability = ⟨s₀.nextPromise, true⟩
  sole : ∀ j : JoinId, j.index < s.joins.size →
    (s.join j).capability.promise = s₀.nextPromise → j = s₀.nextJoin
  own : ∀ k < n, ∀ reaction, s.reaction? (s₀.reactionAt k) = some reaction →
    reaction = ⟨.joined s₀.nextJoin k, none⟩
  range : ∀ r k c, s.reaction? r = some ⟨.joined s₀.nextJoin k, c⟩ → k < n ∧ r = s₀.reactionAt k

theorem join_all (track : Tracker σ) (s₀ : Machine σ κ) {ps : List PromiseId} (hps : ps ≠ []) :
    (s₀.all track ps).2.join s₀.nextJoin =
      { remaining := ps.length
        values := List.replicate ps.length .undefined
        capability := ⟨s₀.nextPromise, true⟩ } := by
  rw [join, joins_all track s₀ hps, nextJoin, Array.getD_eq_getD_getElem?,
    Array.getElem?_push_size, Option.getD_some]

theorem waits_all (hs₀ : s₀.Orderly owned) {ps : List PromiseId} (hps : ps ≠ [])
    (hs₁ : (s₀.all track ps).2.Orderly owned) : s₀.Waits ps.length (s₀.all track ps).2 := by
  have hjoins := joins_all track s₀ hps
  have hreaction : ∀ r, (s₀.all track ps).2.reaction? r =
      if s₀.reactions.size ≤ r.index ∧ r.index < s₀.reactions.size + ps.length then
        some ⟨.joined s₀.nextJoin (0 + (r.index - s₀.reactions.size)), none⟩
      else s₀.reaction? r := fun r => by
    rw [all_of_ne_nil track s₀ hps]
    exact reaction?_attachJoined track ps _ _ 0 r
  have hself := join_all track s₀ hps
  have hlisted : s₀.nextJoin.index < (s₀.all track ps).2.joins.size := by
    rw [hjoins, Array.size_push]
    exact Nat.lt_succ_self _
  refine ⟨hlisted, hs₁.made_of_isJoint ⟨_, hlisted, by rw [hself]⟩, by rw [hself],
    fun j hj hp => ?_, fun k hk reaction hr => ?_, fun r k c hr => ?_⟩
  · rw [hjoins, Array.size_push] at hj
    by_cases e : j.index = s₀.joins.size
    · cases j
      cases e
      rfl
    · have hlt : j.index < s₀.joins.size := by omega
      rw [join_push hjoins hlt] at hp
      exact absurd (hs₀.made_of_isJoint ⟨j, hlt, hp⟩) (not_made_nextPromise s₀)
  · have hplace : s₀.reactions.size ≤ (s₀.reactionAt k).index ∧
        (s₀.reactionAt k).index < s₀.reactions.size + ps.length := by
      dsimp only [reactionAt]
      omega
    rw [hreaction, if_pos hplace] at hr
    cases hr
    simp [reactionAt]
  · rw [hreaction] at hr
    split at hr
    · rename_i hplace
      cases hr
      refine ⟨by omega, ?_⟩
      obtain ⟨i⟩ := r
      dsimp only at hplace
      rw [reactionAt]
      congr 1
      dsimp only
      omega
    · have hlt := hs₀.joined r s₀.nextJoin k (by rw [handler?, hr]; rfl)
      exact absurd hlt (Nat.lt_irrefl _)

theorem Stride.waits (h : s.Stride track ledger os s') (hw : s₀.Waits n s)
    (hplaced : ∀ k < n, (s₀.reactionAt k).index < s.reactions.size) : s₀.Waits n s' := by
  have hkeeps := h.keepsJoins
  refine ⟨hw.listed.trans_le hkeeps.size, h.made hw.made, ?_, fun j hj hp => ?_,
    fun k hk reaction hr => ?_, fun r k c hr => ?_⟩
  · rw [hkeeps.capability hw.listed, hw.capability]
  · by_cases hlt : j.index < s.joins.size
    · exact hw.sole j hlt (by rwa [hkeeps.capability hlt] at hp)
    · rw [hkeeps.promise hj (Nat.not_lt.1 hlt)] at hp
      exact absurd hp.symm (ne_nextPromise hw.made)
  · obtain hr | ⟨hle, -⟩ := h.reaction?_cases hr
    · exact hw.own k hk reaction hr
    · exact absurd (hplaced k hk) (Nat.not_lt.2 hle)
  · obtain hr | ⟨-, hnew⟩ := h.reaction?_cases hr
    · exact hw.range r k c hr
    · generalize hx : (⟨.joined s₀.nextJoin k, c⟩ : Reaction κ) = reaction at hnew
      cases hnew with
      | plain _ hplain => exact absurd (by rw [← hx]) (hplain.alone s₀.nextJoin k)
      | following => cases hx
      | joined i =>
        have hj : s₀.nextJoin = ⟨s.joins.size⟩ :=
          (Handler.joined.inj (congrArg Reaction.handler hx)).1
        exact absurd hw.listed (Nat.not_lt.2 (congrArg JoinId.index hj).ge)

/-! ## What a joint wait has collected -/

def valuesBy (s₀ : Machine σ κ) (n : Nat) (os : List Occurrence) : List (Option Value) :=
  (List.range n).map fun k => valueRun os (s₀.reactionAt k)

def reasonBy (s₀ : Machine σ κ) (n : Nat) (os : List Occurrence) : Option Value :=
  firstReason os s₀.reactions.size n

theorem getElem?_valuesBy (s₀ : Machine σ κ) (os : List Occurrence) {k : Nat} (hk : k < n) :
    (s₀.valuesBy n os)[k]? = some (valueRun os (s₀.reactionAt k)) := by
  rw [valuesBy, List.getElem?_map, List.getElem?_range hk, Option.map_some]

theorem reactionAt_inj {k k' : Nat} : s₀.reactionAt k = s₀.reactionAt k' ↔ k = k' := by
  simp [reactionAt]

section Collecting

variable {os' : List Occurrence} {k : Nat} {v e : Value}

theorem valuesBy_eq (h : ∀ k < n, valueRun os' (s₀.reactionAt k) = none) :
    s₀.valuesBy n (os ++ os') = s₀.valuesBy n os := by
  refine List.map_congr_left fun k hk => ?_
  rw [valueRun_append, h k (List.mem_range.1 hk), Option.or_none]

theorem valuesBy_set (hnone : valueRun os (s₀.reactionAt k) = none)
    (hruns : runsIn (incidentsIn os') = [(s₀.reactionAt k, .fulfilled v)]) :
    s₀.valuesBy n (os ++ os') = (s₀.valuesBy n os).set k (some v) := by
  refine List.ext_getElem (by simp [valuesBy]) fun i hi hi' => ?_
  have hone := valueRun_of_single (r := s₀.reactionAt i) hruns
  simp only [reactionAt_inj] at hone
  simp only [valuesBy, List.getElem_map, List.getElem_range, List.getElem_set, valueRun_append]
  split
  · rename_i e
    subst e
    rw [hnone, Option.none_or, hone, if_pos rfl]
  · rename_i hne
    rw [hone, if_neg hne, Option.or_none]

theorem reasonBy_append (s₀ : Machine σ κ) (n : Nat) (os os' : List Occurrence) :
    s₀.reasonBy n (os ++ os') = (s₀.reasonBy n os).or (s₀.reasonBy n os') :=
  firstReason_append ..

theorem reasonBy_eq (h : ∀ k < n, ∀ e, (s₀.reactionAt k, .rejected e) ∉ runsIn (incidentsIn os')) :
    s₀.reasonBy n (os ++ os') = s₀.reasonBy n os := by
  have hnone : s₀.reasonBy n os' = none := firstReason_eq_none h
  rw [reasonBy_append, hnone, Option.or_none]

end Collecting

inductive Progress (track : Tracker σ) (s₀ : Machine σ κ) (n : Nat) (s s' : Machine σ κ)
    (os os' : List Occurrence) : Prop
  | apart : s'.join s₀.nextJoin = s.join s₀.nextJoin →
      s₀.valuesBy n (os ++ os') = s₀.valuesBy n os →
      s₀.reasonBy n (os ++ os') = s₀.reasonBy n os →
      (∀ r x k, s.reaction? r = some ⟨.joined s₀.nextJoin k, none⟩ →
        .incident (.ran r x) ∉ os') → Progress track s₀ n s s' os os'
  | collects {k : Nat} {v : Value} :
      s.jobs.head? = some (.react (s₀.reactionAt k) (.fulfilled v)) →
      s.reaction? (s₀.reactionAt k) = some ⟨.joined s₀.nextJoin k, none⟩ →
      (s₀.valuesBy n os)[k]? = some none →
      s₀.valuesBy n (os ++ os') = (s₀.valuesBy n os).set k (some v) →
      s₀.reasonBy n (os ++ os') = s₀.reasonBy n os →
      (s.join s₀.nextJoin).remaining - 1 ≠ 0 →
      s' = (s.takeFirst (s₀.reactionAt k)).store s₀.nextJoin k v →
        Progress track s₀ n s s' os os'
  | completes {k : Nat} {v : Value} :
      s.jobs.head? = some (.react (s₀.reactionAt k) (.fulfilled v)) →
      s.reaction? (s₀.reactionAt k) = some ⟨.joined s₀.nextJoin k, none⟩ →
      (s₀.valuesBy n os)[k]? = some none →
      s₀.valuesBy n (os ++ os') = (s₀.valuesBy n os).set k (some v) →
      s₀.reasonBy n (os ++ os') = s₀.reasonBy n os →
      (s.join s₀.nextJoin).remaining - 1 = 0 →
      s' = ((s.takeFirst (s₀.reactionAt k)).fill s₀.nextJoin k v).settle track
        ⟨s₀.nextPromise, true⟩ (.ok (.object ⟨s.objects.size⟩)) →
        Progress track s₀ n s s' os os'
  | givesUp {k : Nat} {e : Value} :
      s.jobs.head? = some (.react (s₀.reactionAt k) (.rejected e)) →
      s.reaction? (s₀.reactionAt k) = some ⟨.joined s₀.nextJoin k, none⟩ →
      (s₀.valuesBy n os)[k]? = some none →
      s₀.valuesBy n (os ++ os') = s₀.valuesBy n os →
      s₀.reasonBy n (os ++ os') = (s₀.reasonBy n os).or (some e) →
      s' = (s.takeFirst (s₀.reactionAt k)).settle track ⟨s₀.nextPromise, true⟩ (.error e) →
        Progress track s₀ n s s' os os'

theorem Stride.progress {os' : List Occurrence} (h : s.Stride track ledger os' s')
    (hw : s₀.Waits n s) (haccounts : s.Accounts (es ++ incidentsIn os)) :
    Progress track s₀ n s s' os os' := by
  -- A reaction that is queued has not run.
  have hfresh : ∀ {r x}, s.jobs.head? = some (.react r x) → valueRun os r = none := fun hjobs =>
    valueRun_eq_none fun y hy => by
      refine haccounts.not_mem_runsIn (y := y) (mem_queue.2 (List.mem_of_mem_head? hjobs)) ?_
      rw [runsIn_append]
      exact List.mem_append_right _ hy
  have hown : ∀ {r x k}, s.jobs.head? = some (.react r x) →
      s.reaction? r = some ⟨.joined s₀.nextJoin k, none⟩ → k < n ∧ r = s₀.reactionAt k ∧
        (s₀.valuesBy n os)[k]? = some none := fun {r x k} hjobs hr => by
    obtain ⟨hk, rfl⟩ := hw.range r k none hr
    refine ⟨hk, rfl, ?_⟩
    rw [getElem?_valuesBy s₀ os hk, hfresh hjobs]
  cases h.bears hw.listed with
  | apart hjoin hruns =>
    have hnot : ∀ k < n, ∀ x, (s₀.reactionAt k, x) ∉ runsIn (incidentsIn os') := by
      intro k hk x hx
      obtain ⟨hjobs, hne⟩ := hruns _ _ hx
      obtain ⟨reaction, hr⟩ := haccounts.reaction hjobs
      exact hne k (hw.own k hk reaction hr ▸ hr)
    refine .apart hjoin (valuesBy_eq fun k hk => valueRun_eq_none (hnot k hk))
      (reasonBy_eq fun k hk e => hnot k hk _) fun r x k hr hran => ?_
    exact (hruns r x (mem_runsIn.2 (mem_incidentsIn.2 hran))).2 k hr
  | collects hjobs hr hmore hruns hs' =>
    obtain ⟨hk, rfl, hnone⟩ := hown hjobs hr
    refine .collects hjobs hr hnone (valuesBy_set (hfresh hjobs) hruns)
      (reasonBy_eq fun _ _ _ he => ?_) hmore hs'
    rw [hruns, List.mem_singleton] at he
    exact nomatch (Prod.mk.inj he).2
  | completes hjobs hr hlast hruns hs' =>
    obtain ⟨hk, rfl, hnone⟩ := hown hjobs hr
    rw [hw.capability] at hs'
    refine .completes hjobs hr hnone (valuesBy_set (hfresh hjobs) hruns)
      (reasonBy_eq fun _ _ _ he => ?_) hlast hs'
    rw [hruns, List.mem_singleton] at he
    exact nomatch (Prod.mk.inj he).2
  | givesUp hjobs hr hruns hs' =>
    obtain ⟨hk, rfl, hnone⟩ := hown hjobs hr
    rw [hw.capability] at hs'
    refine .givesUp hjobs hr hnone (valuesBy_eq fun _ _ => valueRun_of_rejected hruns) ?_ hs'
    rw [reasonBy_append]
    exact congrArg _ (firstReason_of_single hk hruns)

/-- What is kept of a joint wait is what its reactions have run with. -/
structure Tally (s₀ : Machine σ κ) (n : Nat) (os : List Occurrence) (s : Machine σ κ) : Prop extends
    Waits s₀ n s where
  remaining : (s.join s₀.nextJoin).remaining = (s₀.valuesBy n os).countP Option.isNone
  values : (s.join s₀.nextJoin).values = (s₀.valuesBy n os).map (·.getD .undefined)

theorem valuesBy_nil (s₀ : Machine σ κ) (n : Nat) : s₀.valuesBy n [] = List.replicate n none :=
  List.eq_replicate_iff.2 ⟨by simp [valuesBy], fun v hv => by
    obtain ⟨k, -, rfl⟩ := List.mem_map.1 hv
    rfl⟩

theorem tally_all (hs₀ : s₀.Orderly owned) {ps : List PromiseId} (hps : ps ≠ [])
    (hs₁ : (s₀.all track ps).2.Orderly owned) :
    s₀.Tally ps.length [] (s₀.all track ps).2 where
  toWaits := waits_all hs₀ hps hs₁
  remaining := by
    rw [join_all track s₀ hps, valuesBy_nil, List.countP_replicate]
    rfl
  values := by
    rw [join_all track s₀ hps, valuesBy_nil, List.map_replicate]
    rfl

theorem countP_set_some {l : List (Option Value)} {k : Nat} (h : l[k]? = some none) (v : Value) :
    0 < l.countP Option.isNone ∧
      (l.set k (some v)).countP Option.isNone = l.countP Option.isNone - 1 := by
  obtain ⟨hk, hnone⟩ := List.getElem?_eq_some_iff.1 h
  refine ⟨List.countP_pos_iff.2 ⟨none, List.mem_of_getElem? h, rfl⟩, ?_⟩
  rw [List.countP_set hk, hnone]
  rfl

theorem Tally.store {os' : List Occurrence} {u : Machine σ κ} {k : Nat} {v : Value}
    (ht : s₀.Tally n os s) (hu : u.joins = (s.store s₀.nextJoin k v).joins) (hw : s₀.Waits n u)
    (hnone : (s₀.valuesBy n os)[k]? = some none)
    (hvalues : s₀.valuesBy n (os ++ os') = (s₀.valuesBy n os).set k (some v)) :
    s₀.Tally n (os ++ os') u := by
  have hself : u.join s₀.nextJoin = { s.join s₀.nextJoin with
      remaining := (s.join s₀.nextJoin).remaining - 1
      values := (s.join s₀.nextJoin).values.set k v } := by
    rw [join_of_joins hu, join_store, if_pos ⟨rfl, ht.listed⟩]
  refine { toWaits := hw, remaining := ?_, values := ?_ }
  · rw [hself, hvalues, (countP_set_some hnone v).2]
    exact congrArg (· - 1) ht.remaining
  · rw [hself, hvalues, List.map_set]
    exact congrArg (List.set · k v) ht.values

theorem Tally.stride {os' : List Occurrence} (ht : s₀.Tally n os s)
    (h : s.Stride track ledger os' s') (haccounts : s.Accounts (es ++ incidentsIn os))
    (hplaced : ∀ k < n, (s₀.reactionAt k).index < s.reactions.size) :
    s₀.Tally n (os ++ os') s' := by
  have hw := h.waits ht.toWaits hplaced
  cases h.progress ht.toWaits haccounts with
  | apart hjoin hvalues =>
    exact ⟨hw, by rw [hjoin, hvalues, ht.remaining], by rw [hjoin, hvalues, ht.values]⟩
  | collects _ _ hnone hvalues _ _ hs' =>
    refine ht.store ?_ hw hnone hvalues
    rw [hs']
    rfl
  | completes _ _ hnone hvalues _ _ hs' =>
    refine ht.store ?_ hw hnone hvalues
    rw [hs']
    exact joins_settle track _ _ _
  | givesUp _ _ _ hvalues _ hs' =>
    have hjoin : s'.join s₀.nextJoin = s.join s₀.nextJoin := by
      rw [hs']
      exact join_of_joins (joins_settle track _ _ _) _
    exact ⟨hw, by rw [hjoin, hvalues, ht.remaining], by rw [hjoin, hvalues, ht.values]⟩

end Machine

end ModuleGraph
