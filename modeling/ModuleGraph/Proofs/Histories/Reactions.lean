import ModuleGraph.Proofs.Histories.Settling

/-! # Reactions run once and in order

A reaction that was attached to a promise is held by it while the promise is pending, is queued when
the promise is settled, and is consumed when its job is started. So the reactions that were attached
to a promise are at any time, in this order, those that have run, those that are queued, and those
that the promise holds. -/

namespace ModuleGraph

variable {σ κ α : Type}

/-! ## What a history tells of reactions -/

def Incident.attaches? : Incident → Option (PromiseId × ReactionId)
  | .attached p r => some (p, r)
  | .lost _ | .settled .. | .consumed _ | .ran .. => none

def Incident.runs? : Incident → Option (ReactionId × Settlement)
  | .ran r x => some (r, x)
  | .attached .. | .lost _ | .settled .. | .consumed _ => none

def Job.react? : Job → Option (ReactionId × Settlement)
  | .react r x => some (r, x)
  | .adopt .. | .finishImport .. => none

def attachmentsIn (es : List Incident) : List (PromiseId × ReactionId) :=
  es.filterMap Incident.attaches?

def attachedTo (es : List Incident) (p : PromiseId) : List ReactionId :=
  ((attachmentsIn es).filter (·.1 = p)).map (·.2)

def runsIn (es : List Incident) : List (ReactionId × Settlement) := es.filterMap Incident.runs?

/-- The reactions whose jobs are queued, the next one first. -/
def Machine.queue (s : Machine σ κ) : List (ReactionId × Settlement) := s.jobs.filterMap Job.react?

def among (es : List Incident) (p : PromiseId) (l : List (ReactionId × Settlement)) :
    List ReactionId :=
  (l.map (·.1)).filter (· ∈ attachedTo es p)

section Lists

variable {es es' : List Incident} {p q : PromiseId} {r : ReactionId} {x : Settlement}
variable {l l' : List (ReactionId × Settlement)}

theorem mem_attachmentsIn : (p, r) ∈ attachmentsIn es ↔ .attached p r ∈ es := by
  rw [attachmentsIn, List.mem_filterMap]
  constructor
  · rintro ⟨e, he, hp⟩
    cases e <;> cases hp
    exact he
  · exact fun h => ⟨_, h, rfl⟩

theorem mem_attachedTo : r ∈ attachedTo es p ↔ .attached p r ∈ es := by
  rw [attachedTo, List.mem_map, ← mem_attachmentsIn]
  constructor
  · rintro ⟨⟨q, r'⟩, h, rfl⟩
    obtain ⟨h, e⟩ := List.mem_filter.1 h
    exact of_decide_eq_true e ▸ h
  · exact fun h => ⟨(p, r), List.mem_filter.2 ⟨h, decide_eq_true rfl⟩, rfl⟩

theorem mem_runsIn : (r, x) ∈ runsIn es ↔ .ran r x ∈ es := by
  rw [runsIn, List.mem_filterMap]
  constructor
  · rintro ⟨e, he, hr⟩
    cases e <;> cases hr
    exact he
  · exact fun h => ⟨_, h, rfl⟩

theorem Machine.mem_queue {s : Machine σ κ} : (r, x) ∈ s.queue ↔ .react r x ∈ s.jobs := by
  rw [queue, List.mem_filterMap]
  constructor
  · rintro ⟨job, hjob, hr⟩
    cases job <;> cases hr
    exact hjob
  · exact fun h => ⟨_, h, rfl⟩

@[simp] theorem attachmentsIn_append (es es' : List Incident) :
    attachmentsIn (es ++ es') = attachmentsIn es ++ attachmentsIn es' := List.filterMap_append

@[simp] theorem attachedTo_append (es es' : List Incident) (p : PromiseId) :
    attachedTo (es ++ es') p = attachedTo es p ++ attachedTo es' p := by
  simp [attachedTo]

@[simp] theorem runsIn_append (es es' : List Incident) :
    runsIn (es ++ es') = runsIn es ++ runsIn es' := List.filterMap_append

@[simp] theorem among_append (es : List Incident) (p : PromiseId)
    (l l' : List (ReactionId × Settlement)) :
    among es p (l ++ l') = among es p l ++ among es p l' := by
  simp [among]

theorem among_congr (h : ∀ r x, (r, x) ∈ l → (r ∈ attachedTo es p ↔ r ∈ attachedTo es' q)) :
    among es p l = among es' q l := by
  refine List.filter_congr fun r hr => decide_eq_decide.2 ?_
  obtain ⟨⟨r, x⟩, hx, rfl⟩ := List.mem_map.1 hr
  exact h r x hx

theorem among_singleton (es : List Incident) (p : PromiseId) (r : ReactionId) (x : Settlement) :
    among es p [(r, x)] = if r ∈ attachedTo es p then [r] else [] := by
  by_cases h : r ∈ attachedTo es p <;> simp [among, h]

theorem mem_append_attached {r' : ReactionId} :
    .attached q r ∈ es ++ [.attached p r'] ↔ .attached q r ∈ es ∨ q = p ∧ r = r' := by
  simp

theorem attachedTo_append_attached (es : List Incident) (p q : PromiseId) (r : ReactionId) :
    attachedTo (es ++ [.attached p r]) q = attachedTo es q ++ if q = p then [r] else [] := by
  rw [attachedTo_append]
  by_cases e : q = p <;> simp [attachedTo, attachmentsIn, Incident.attaches?, e, Ne.symm]

theorem runsIn_append_attached (es : List Incident) (p : PromiseId) (r : ReactionId) :
    runsIn (es ++ [.attached p r]) = runsIn es := by
  simp [runsIn, Incident.runs?]

/-! What a history tells of a promise depends on the reactions that were attached. -/

theorem attached_mem_congr (h : attachmentsIn es' = attachmentsIn es) :
    .attached p r ∈ es' ↔ .attached p r ∈ es := by
  rw [← mem_attachmentsIn, h, mem_attachmentsIn]

theorem attachedTo_congr (h : attachmentsIn es' = attachmentsIn es) (p : PromiseId) :
    attachedTo es' p = attachedTo es p := by
  rw [attachedTo, h, attachedTo]

theorem among_of_attachmentsIn (h : attachmentsIn es' = attachmentsIn es) (p : PromiseId)
    (l : List (ReactionId × Settlement)) : among es' p l = among es p l :=
  among_congr fun _ _ _ => by rw [attachedTo_congr h]

theorem attachmentsIn_append_settled (es : List Incident) (p : PromiseId) (x : Settlement) :
    attachmentsIn (es ++ [.settled p x]) = attachmentsIn es := by
  simp [attachmentsIn, Incident.attaches?]

theorem attachmentsIn_append_ran (es : List Incident) (r : ReactionId) (x : Settlement) :
    attachmentsIn (es ++ [.ran r x]) = attachmentsIn es := by
  simp [attachmentsIn, Incident.attaches?]

end Lists

namespace Machine

variable {track : Tracker σ} {ledger : σ → α} {owned : σ → PromiseId → Prop}
variable {hosts : Set (Host σ κ)} {rank : Host σ κ → Nat} {h₀ : σ}
variable {s s' : Machine σ κ} {p q : PromiseId} {r : ReactionId} {es es' : List Incident}

/-! ## The account of reactions -/

/-- Where the reactions are that were attached in a history which has led to the machine. -/
structure Accounts (es : List Incident) (s : Machine σ κ) : Prop where
  all : ∀ r : ReactionId, r.index < s.reactions.size → (∃ p, .attached p r ∈ es) ∨ .lost r ∈ es
  fresh : ∀ p r, .attached p r ∈ es → s.Made p ∧ r.index < s.reactions.size
  once : ((attachmentsIn es).map (·.2)).Nodup
  known : ∀ r x, (r, x) ∈ runsIn es ++ s.queue → ∃ p, .attached p r ∈ es
  order : ∀ p, attachedTo es p = among es p (runsIn es ++ s.queue) ++ (s.promise p).reactions
  result : ∀ p r x, .attached p r ∈ es → (r, x) ∈ runsIn es ++ s.queue →
    (s.promise p).settlement? = some x
  slot : ∀ p r, .attached p r ∈ es → (s.reaction? r = none ↔ ∃ x, (r, x) ∈ runsIn es)

theorem accounts_initial (h : σ) : (initial h : Machine σ κ).Accounts [] where
  all r hr := absurd hr (Nat.not_lt_zero _)
  fresh p r h := nomatch h
  once := .nil
  known r x h := nomatch h
  order p := by
    rw [promise_of_not_made (show ¬(initial h : Machine σ κ).Made p from Nat.not_lt_zero _)]
    rfl
  result p r x h := nomatch h
  slot p r h := nomatch h

/-- A reaction was attached to one promise only. -/
theorem Accounts.promise_unique (h : s.Accounts es) (hp : .attached p r ∈ es)
    (hq : .attached q r ∈ es) : p = q := by
  have hpair :=
    List.inj_on_of_nodup_map h.once (mem_attachmentsIn.2 hp) (mem_attachmentsIn.2 hq) rfl
  exact congrArg Prod.fst hpair

theorem Accounts.holds (h : s.Accounts es) (hr : s.Holds p r) : .attached p r ∈ es := by
  rw [← mem_attachedTo, h.order p]
  exact List.mem_append_right _ hr

/-- The reactions, the promises that hold them and their jobs are as they were. New reactions are
lost. -/
structure Undisturbed (s : Machine σ κ) (es : List Incident) (s' : Machine σ κ) : Prop where
  made : ∀ p, s.Made p → s'.Made p
  held : ∀ p, (s'.promise p).reactions = (s.promise p).reactions
  settlement : ∀ p x, (s.promise p).settlement? = some x → (s'.promise p).settlement? = some x
  size : s.reactions.size ≤ s'.reactions.size
  reactions : ∀ r : ReactionId, r.index < s.reactions.size → s'.reaction? r = s.reaction? r
  queue : s'.queue = s.queue
  lost : ∀ r : ReactionId, s.reactions.size ≤ r.index → r.index < s'.reactions.size → .lost r ∈ es
  attached : attachmentsIn es = []
  ran : runsIn es = []

theorem Accounts.undisturbed (h : s.Accounts es) (hs : s.Undisturbed es' s') :
    s'.Accounts (es ++ es') := by
  have hattached : attachmentsIn (es ++ es') = attachmentsIn es := by
    rw [attachmentsIn_append, hs.attached, List.append_nil]
  have hmem : ∀ p r, .attached p r ∈ es ++ es' ↔ .attached p r ∈ es := fun p r =>
    attached_mem_congr hattached
  have hruns : runsIn (es ++ es') = runsIn es := by rw [runsIn_append, hs.ran, List.append_nil]
  refine ⟨fun r hr => ?_, fun p r hr => ?_, hattached ▸ h.once, fun r x hr => ?_, fun p => ?_,
    fun p r x hp hr => ?_, fun p r hp => ?_⟩
  · by_cases hlt : r.index < s.reactions.size
    · exact (h.all r hlt).imp (fun ⟨p, hp⟩ => ⟨p, (hmem p r).2 hp⟩) (List.mem_append_left _)
    · exact .inr (List.mem_append_right _ (hs.lost r (Nat.not_lt.1 hlt) hr))
  · obtain ⟨hp, hlt⟩ := h.fresh p r ((hmem p r).1 hr)
    exact ⟨hs.made p hp, hlt.trans_le hs.size⟩
  · rw [hruns, hs.queue] at hr
    obtain ⟨p, hp⟩ := h.known r x hr
    exact ⟨p, (hmem p r).2 hp⟩
  · rw [attachedTo_congr hattached, hruns, hs.queue, hs.held, among_of_attachmentsIn hattached]
    exact h.order p
  · rw [hruns, hs.queue] at hr
    exact hs.settlement p x (h.result p r x ((hmem p r).1 hp) hr)
  · have hp := (hmem p r).1 hp
    rw [hruns, hs.reactions r (h.fresh p r hp).2]
    exact h.slot p r hp

theorem Undisturbed.of_reactions (hmade : ∀ p, s.Made p → s'.Made p)
    (hheld : ∀ p, (s'.promise p).reactions = (s.promise p).reactions)
    (hbecomes : ∀ p, (s.promise p).Becomes (s'.promise p)) (hreactions : s'.reactions = s.reactions)
    (hqueue : s'.queue = s.queue) (hattached : attachmentsIn es = []) (hran : runsIn es = []) :
    s.Undisturbed es s' where
  made := hmade
  held := hheld
  settlement p _ hx := (hbecomes p).settlement hx
  size := by rw [hreactions]
  reactions r _ := by rw [reaction?, hreactions, reaction?]
  queue := hqueue
  lost r hr hr' := by
    rw [hreactions] at hr'
    exact absurd hr' (Nat.not_lt.2 hr)
  attached := hattached
  ran := hran

theorem queue_append_react (s : Machine σ κ) (l : List (ReactionId × Settlement))
    (h : s'.jobs = s.jobs ++ l.map fun r => .react r.1 r.2) : s'.queue = s.queue ++ l := by
  rw [queue, h, List.filterMap_append, queue, List.filterMap_map]
  refine congrArg (_ ++ ·) ?_
  rw [show Job.react? ∘ (fun r : ReactionId × Settlement => Job.react r.1 r.2) = some from rfl,
    List.filterMap_some]

theorem queue_append_other (s : Machine σ κ) (job : Job) (hjob : ∀ r x, job ≠ .react r x)
    (h : s'.jobs = s.jobs ++ [job]) : s'.queue = s.queue := by
  rw [queue, h, List.filterMap_append, queue]
  cases job with
  | react r x => exact absurd rfl (hjob r x)
  | adopt | finishImport => exact List.append_nil _

/-- A reaction that is attached to a settled promise is queued, and held by a pending one. -/
theorem placed_attach (track : Tracker σ) (s : Machine σ κ) (reaction : Reaction κ)
    (hp : s.Made p) :
    (∃ x, (s.promise p).settlement? = some x ∧
      (s.attach track p reaction).queue = s.queue ++ [(s.nextReaction, x)] ∧
      ∀ q, ((s.attach track p reaction).promise q).reactions = (s.promise q).reactions) ∨
    ((s.promise p).settlement? = none ∧ (s.attach track p reaction).queue = s.queue ∧
      ∀ q, ((s.attach track p reaction).promise q).reactions = if q = p then
        (s.promise p).reactions ++ [s.nextReaction] else (s.promise q).reactions) := by
  have hjobs := jobs_attach track s p reaction
  have hpromise := promise_attach track s p reaction hp
  cases hs : s.promise p with
  | pending rs resolved =>
    rw [hs] at hjobs
    refine .inr ⟨rfl, queue_append_react s [] hjobs |>.trans (List.append_nil _), fun q => ?_⟩
    rw [hpromise, hs]
    split <;> rfl
  | fulfilled v =>
    rw [hs] at hjobs
    refine .inl ⟨_, rfl, queue_append_react s [(s.nextReaction, .fulfilled v)] hjobs, fun q => ?_⟩
    rw [hpromise]
    split
    · rename_i e
      rw [e, hs]
      rfl
    · rfl
  | rejected e handled =>
    rw [hs] at hjobs
    refine .inl ⟨_, rfl, queue_append_react s [(s.nextReaction, .rejected e)] hjobs, fun q => ?_⟩
    rw [hpromise]
    split
    · rename_i e
      rw [e, hs]
      rfl
    · rfl

theorem reaction?_attach (s : Machine σ κ) (p : PromiseId) (reaction : Reaction κ)
    (r : ReactionId) :
    (s.attach track p reaction).reaction? r =
      if r = s.nextReaction then some reaction else s.reaction? r :=
  (attach_attached track s p reaction).reaction r

/-- The jobs after a reaction was attached are the ones before, and its own if the promise is
settled. -/
theorem mem_total_attach (hp : s.Made p) (reaction : Reaction κ) {x : Settlement}
    (hr : (r, x) ∈ runsIn (es ++ [.attached p s.nextReaction]) ++
      (s.attach track p reaction).queue) :
    (r, x) ∈ runsIn es ++ s.queue ∨ r = s.nextReaction ∧ (s.promise p).settlement? = some x := by
  rw [runsIn_append_attached] at hr
  obtain ⟨y, hy, hqueue, -⟩ | ⟨-, hqueue, -⟩ := placed_attach track s reaction hp
  · rw [hqueue, ← List.append_assoc] at hr
    refine (List.mem_append.1 hr).imp id fun hr => ?_
    cases List.mem_singleton.1 hr
    exact ⟨rfl, hy⟩
  · rw [hqueue] at hr
    exact .inl hr

section Attach

variable (h : s.Accounts es)
include h

/-- Nothing is known of the reaction that is made next. -/
theorem Accounts.next_not_attached (q : PromiseId) : .attached q s.nextReaction ∉ es := fun hq =>
  Nat.lt_irrefl _ (h.fresh q _ hq).2

theorem Accounts.ne_next {x : Settlement} (hr : (r, x) ∈ runsIn es ++ s.queue) :
    r ≠ s.nextReaction := by
  rintro rfl
  obtain ⟨q, hq⟩ := h.known _ x hr
  exact h.next_not_attached q hq

theorem Accounts.among_next (p q : PromiseId) :
    among (es ++ [.attached p s.nextReaction]) q (runsIn es ++ s.queue) =
      among es q (runsIn es ++ s.queue) :=
  among_congr fun r x hr => by
    rw [mem_attachedTo, mem_attachedTo, mem_append_attached, or_iff_left fun e => h.ne_next hr e.2]

theorem Accounts.once_next (p : PromiseId) :
    ((attachmentsIn (es ++ [.attached p s.nextReaction])).map (·.2)).Nodup := by
  rw [attachmentsIn_append, List.map_append]
  refine h.once.append (List.nodup_singleton _) fun r hr hr' => ?_
  obtain ⟨⟨q, r⟩, hq, rfl⟩ := List.mem_map.1 hr
  cases List.mem_singleton.1 hr'
  exact h.next_not_attached q (mem_attachmentsIn.1 hq)

variable (hp : s.Made p) (reaction : Reaction κ)
include hp

theorem Accounts.known_attach {x : Settlement}
    (hr : (r, x) ∈ runsIn (es ++ [.attached p s.nextReaction]) ++
      (s.attach track p reaction).queue) :
    ∃ q, .attached q r ∈ es ++ [.attached p s.nextReaction] := by
  obtain hr | ⟨rfl, -⟩ := mem_total_attach hp reaction hr
  · obtain ⟨q, hq⟩ := h.known r x hr
    exact ⟨q, List.mem_append_left _ hq⟩
  · exact ⟨p, List.mem_append_right _ (List.mem_singleton_self _)⟩

theorem Accounts.order_attach (q : PromiseId) :
    attachedTo (es ++ [.attached p s.nextReaction]) q =
      among (es ++ [.attached p s.nextReaction]) q
          (runsIn (es ++ [.attached p s.nextReaction]) ++ (s.attach track p reaction).queue) ++
        ((s.attach track p reaction).promise q).reactions := by
  have hself : s.nextReaction ∈ attachedTo (es ++ [.attached p s.nextReaction]) q ↔ q = p := by
    rw [mem_attachedTo, mem_append_attached, or_iff_right (h.next_not_attached q),
      and_iff_left rfl]
  rw [runsIn_append_attached]
  obtain ⟨y, hy, hqueue, hheld⟩ | ⟨-, hqueue, hheld⟩ := placed_attach track s reaction hp
  · -- A settled promise holds nothing, so that the new reaction stands after all others.
    have hnext : among (es ++ [.attached p s.nextReaction]) q [(s.nextReaction, y)] =
        if q = p then [s.nextReaction] else [] := by
      rw [among_singleton]
      exact if_congr hself rfl rfl
    rw [hqueue, ← List.append_assoc, among_append, h.among_next, hnext, hheld,
      attachedTo_append_attached, h.order q]
    split
    · rename_i e
      rw [PromiseState.reactions_of_settlement (e ▸ hy), List.append_nil, List.append_nil]
    · rw [List.append_nil, List.append_nil]
  · rw [hqueue, h.among_next, hheld, attachedTo_append_attached, h.order q]
    split
    · rename_i e
      rw [e, List.append_assoc]
    · rw [List.append_nil]

theorem Accounts.result_attach {x : Settlement}
    (hq : .attached q r ∈ es ++ [.attached p s.nextReaction])
    (hr : (r, x) ∈ runsIn (es ++ [.attached p s.nextReaction]) ++
      (s.attach track p reaction).queue) :
    ((s.attach track p reaction).promise q).settlement? = some x := by
  have hsame : ((s.attach track p reaction).promise q).settlement? =
      (s.promise q).settlement? := by
    rw [promise_attach track s p reaction hp]
    split
    · rename_i e
      rw [PromiseState.settlement?_attach, e]
    · rfl
  rw [hsame]
  obtain hq | ⟨rfl, rfl⟩ := mem_append_attached.1 hq
  · obtain hr | ⟨rfl, -⟩ := mem_total_attach hp reaction hr
    · exact h.result q r x hq hr
    · exact absurd hq (h.next_not_attached q)
  · obtain hr | ⟨-, hx⟩ := mem_total_attach hp reaction hr
    · exact absurd rfl (h.ne_next hr)
    · exact hx

theorem Accounts.attach :
    (s.attach track p reaction).Accounts (es ++ [.attached p s.nextReaction]) := by
  have hattached := attach_attached track s p reaction
  refine ⟨?all, ?fresh, h.once_next p, fun _ _ => h.known_attach hp reaction,
    h.order_attach hp reaction, fun _ _ _ => h.result_attach hp reaction, ?slot⟩
  case all =>
    intro r hr
    by_cases e : r = s.nextReaction
    · exact .inl ⟨p, mem_append_attached.2 (.inr ⟨rfl, e⟩)⟩
    · have hlt : r.index < s.reactions.size := by
        have hne : r.index ≠ s.reactions.size := fun hi => e (by cases r; cases hi; rfl)
        have hcount : (s.attach track p reaction).reactions.size = _ := hattached.count
        omega
      exact (h.all r hlt).imp (Exists.imp fun q => List.mem_append_left _)
        (List.mem_append_left _)
  case fresh =>
    intro q r hq
    rw [hattached.count]
    obtain hq | ⟨rfl, rfl⟩ := mem_append_attached.1 hq
    · exact ⟨hattached.made (h.fresh q r hq).1, Nat.lt_succ_of_lt (h.fresh q r hq).2⟩
    · exact ⟨hattached.made hp, Nat.lt_succ_self _⟩
  case slot =>
    intro q r hq
    rw [reaction?_attach, runsIn_append_attached]
    obtain hq | ⟨-, e⟩ := mem_append_attached.1 hq
    · have hne : r ≠ s.nextReaction := by
        rintro rfl
        exact h.next_not_attached q hq
      rw [if_neg hne]
      exact h.slot q r hq
    · rw [if_pos e]
      exact iff_of_false nofun fun ⟨x, hx⟩ => h.ne_next (List.mem_append_left _ hx) e

end Attach

section Concludes

variable (h : s.Accounts es) {rs : List ReactionId} {resolved : Bool} {x : Settlement}
variable (hp : s.promise p = .pending rs resolved) (hs : s.Concludes track s' p rs x)
include h hp

omit h hp in
/-- The jobs after a promise is settled are the ones before and those of what it has held. -/
theorem Concludes.total (hs : s.Concludes track s' p rs x) (es : List Incident) :
    runsIn (es ++ [.settled p x]) ++ s'.queue = runsIn es ++ s.queue ++ rs.map (·, x) := by
  have hruns : runsIn (es ++ [.settled p x]) = runsIn es := by simp [runsIn, Incident.runs?]
  have hqueue : s'.queue = s.queue ++ rs.map (·, x) := by
    refine queue_append_react s _ (hs.jobs.trans ?_)
    rw [List.map_map]
    rfl
  rw [hruns, hqueue, List.append_assoc]

theorem Accounts.held (hr : r ∈ rs) : .attached p r ∈ es :=
  h.holds (by rw [Holds, hp]; exact hr)

/-- What a promise has held was attached to it, and to no other one. -/
theorem Accounts.among_held (q : PromiseId) :
    among es q (rs.map (·, x)) = if q = p then rs else [] := by
  have hfst : (rs.map (·, x)).map (·.1) = rs := List.map_map.trans (List.map_id rs)
  rw [among, hfst]
  split
  · rename_i e
    rw [e]
    exact List.filter_eq_self.2 fun r hr => decide_eq_true (mem_attachedTo.2 (h.held hp hr))
  · rename_i e
    refine List.filter_eq_nil_iff.2 fun r hr hq => e ?_
    exact h.promise_unique (mem_attachedTo.1 (of_decide_eq_true hq)) (h.held hp hr)

include hs

theorem Accounts.order_concludes (q : PromiseId) :
    attachedTo (es ++ [.settled p x]) q =
      among (es ++ [.settled p x]) q (runsIn (es ++ [.settled p x]) ++ s'.queue) ++
        (s'.promise q).reactions := by
  have hattached := attachmentsIn_append_settled es p x
  rw [hs.total, attachedTo_congr hattached, among_of_attachmentsIn hattached, among_append,
    h.among_held hp, hs.promise, h.order q]
  split
  · rename_i e
    rw [Settlement.reactions_state, List.append_nil, e, hp]
    rfl
  · rw [List.append_nil]

theorem Accounts.result_concludes {y : Settlement} (hq : .attached q r ∈ es)
    (hr : (r, y) ∈ runsIn es ++ s.queue ++ rs.map (·, x)) :
    (s'.promise q).settlement? = some y := by
  rw [hs.promise]
  obtain hr | hr := List.mem_append.1 hr
  · have hy := h.result q r y hq hr
    have hne : q ≠ p := by
      rintro rfl
      rw [hp] at hy
      cases hy
    rw [if_neg hne, hy]
  · obtain ⟨r', hr', e⟩ := List.mem_map.1 hr
    cases e
    rw [if_pos (h.promise_unique hq (h.held hp hr')), Settlement.settlement?_state]

/-- The reactions of a promise that comes to be settled are queued. -/
theorem Accounts.concludes : s'.Accounts (es ++ [.settled p x]) := by
  have hattached := attachmentsIn_append_settled es p x
  have hmem : ∀ q r, .attached q r ∈ es ++ [.settled p x] ↔ .attached q r ∈ es := fun q r =>
    attached_mem_congr hattached
  refine ⟨?all, ?fresh, hattached ▸ h.once, ?known, h.order_concludes hp hs, ?result, ?slot⟩
  case all =>
    intro r hr
    rw [hs.reactions] at hr
    exact (h.all r hr).imp (Exists.imp fun q => (hmem q r).2) (List.mem_append_left _)
  case fresh =>
    intro q r hq
    obtain ⟨hmade, hlt⟩ := h.fresh q r ((hmem q r).1 hq)
    exact ⟨by rwa [Made, hs.size], hs.reactions ▸ hlt⟩
  case known =>
    intro r y hr
    rw [hs.total] at hr
    obtain hr | hr := List.mem_append.1 hr
    · obtain ⟨q, hq⟩ := h.known r y hr
      exact ⟨q, (hmem q r).2 hq⟩
    · obtain ⟨r', hr', e⟩ := List.mem_map.1 hr
      cases e
      exact ⟨p, (hmem p r).2 (h.held hp hr')⟩
  case result =>
    intro q r y hq hr
    rw [hs.total] at hr
    exact h.result_concludes hp hs ((hmem q r).1 hq) hr
  case slot =>
    intro q r hq
    have hruns : runsIn (es ++ [.settled p x]) = runsIn es := by simp [runsIn, Incident.runs?]
    rw [hruns, reaction?, hs.reactions]
    exact h.slot q r ((hmem q r).1 hq)

end Concludes

theorem Accounts.takeFirst (h : s.Accounts es) {x : Settlement}
    (hjobs : s.jobs.head? = some (.react r x)) :
    (s.takeFirst r).Accounts (es ++ [.ran r x]) := by
  obtain ⟨rest, hjobs⟩ := List.head?_eq_some_iff.1 hjobs
  have hattached := attachmentsIn_append_ran es r x
  have hmem : ∀ q r', .attached q r' ∈ es ++ [.ran r x] ↔ .attached q r' ∈ es := fun q r' =>
    attached_mem_congr hattached
  have hruns : runsIn (es ++ [.ran r x]) = runsIn es ++ [(r, x)] := by
    simp [runsIn, Incident.runs?]
  -- What was at the head of the queue is now the last one that has run.
  have htotal : runsIn (es ++ [.ran r x]) ++ (s.takeFirst r).queue = runsIn es ++ s.queue := by
    have hqueue : s.queue = (r, x) :: (s.takeFirst r).queue := by
      rw [queue, queue, Machine.takeFirst, hjobs]
      rfl
    rw [hruns, hqueue, List.append_assoc]
    rfl
  have hsize : (s.takeFirst r).reactions.size = s.reactions.size := by simp [Machine.takeFirst]
  refine ⟨?all, ?fresh, hattached ▸ h.once, ?known, ?order, ?result, ?slot⟩
  case all =>
    intro r' hr
    rw [hsize] at hr
    exact (h.all r' hr).imp (Exists.imp fun q => (hmem q r').2) (List.mem_append_left _)
  case fresh =>
    intro q r' hq
    obtain ⟨hmade, hlt⟩ := h.fresh q r' ((hmem q r').1 hq)
    exact ⟨hmade, hsize ▸ hlt⟩
  case known =>
    intro r' y hr
    rw [htotal] at hr
    obtain ⟨q, hq⟩ := h.known r' y hr
    exact ⟨q, (hmem q r').2 hq⟩
  case order =>
    intro q
    rw [htotal, attachedTo_congr hattached, among_of_attachmentsIn hattached]
    exact h.order q
  case result =>
    intro q r' y hq hr
    rw [htotal] at hr
    exact h.result q r' y ((hmem q r').1 hq) hr
  case slot =>
    intro q r' hq
    have hslot := h.slot q r' ((hmem q r').1 hq)
    rw [reaction?_takeFirst, hruns]
    split
    · rename_i e
      exact iff_of_true rfl ⟨x, by simp [e]⟩
    · rename_i e
      rw [hslot]
      simp [e]

theorem reactions_newPromise (s : Machine σ κ) {st : PromiseState} (hst : st.reactions = [])
    (p : PromiseId) : ((s.newPromise st).2.promise p).reactions = (s.promise p).reactions := by
  rw [promise_newPromise]
  split
  · rename_i e
    rw [hst, e, reactions_of_not_made (not_made_nextPromise s)]
  · rfl

theorem accounts_settle (h : s.Accounts es) {c : Capability} (hc : s.Made c.promise)
    (result : Except Value Value) : (s.settle track c result).Accounts
      (es ++ s.settling (s.settle track c result) c.promise) := by
  have htick : s.Tick track (fun _ => ()) _ (s.settle track c result) := .settle s result hc
  have hmade : ∀ q, s.Made q → (s.settle track c result).Made q := fun _ => htick.made
  have hbecomes := htick.becomes
  obtain ⟨-, hs⟩ | ⟨q, hp, hs⟩ | ⟨x, hp, hs⟩ := settle_attempts track hc result
  · rw [hs, settling_eq_nil rfl, List.append_nil]
    exact h
  · have hpromise : ∀ q, (s.settle track c result).promise q =
        if q = c.promise then .pending _ true else s.promise q := fun q => by
      rw [hs]
      exact promise_setPromise hc _ q
    rw [settling_eq_nil (by rw [hpromise, if_pos rfl, hp]; rfl)]
    refine h.undisturbed (.of_reactions hmade (fun q => ?_) hbecomes ?_ ?_ rfl rfl)
    · rw [hpromise]
      split
      · rename_i e
        rw [e, hp]
        rfl
      · rfl
    · rw [hs]
      rfl
    · rw [hs]
      exact queue_append_other s (.adopt c.promise q) nofun rfl
  · have hnone : (s.promise c.promise).settlement? = none := by
      rw [hp]
      rfl
    rw [settling_of_pending hnone (by rw [hs.promise, if_pos rfl, Settlement.settlement?_state])]
    exact h.concludes hp hs

theorem Tick.accounts (htick : s.Tick track ledger es' s') (h : s.Accounts es) :
    s'.Accounts (es ++ es') := by
  have hmade := fun p => htick.made (p := p)
  have hbecomes := htick.becomes
  cases htick with
  | aside hs =>
    refine h.undisturbed (.of_reactions hmade (fun p => ?_) hbecomes hs.reactions ?_ rfl rfl)
    · rw [promise_of_promises hs.promises]
    · rw [queue, hs.jobs, queue]
  | newPromise =>
    exact h.undisturbed (.of_reactions hmade (reactions_newPromise s rfl) hbecomes rfl rfl rfl rfl)
  | newFulfilled v =>
    exact h.undisturbed (.of_reactions hmade (reactions_newPromise s rfl) hbecomes rfl rfl rfl rfl)
  | attach reaction hp => exact h.attach hp reaction
  | lose reaction hp =>
    rw [attach_of_not_made reaction hp] at hmade hbecomes ⊢
    refine h.undisturbed ⟨hmade, fun _ => rfl, fun _ _ => id, ?_, fun r hr => ?_, rfl,
      fun r hr hr' => ?_, rfl, rfl⟩
    · simp [newReaction]
    · rw [reaction?, newReaction]
      exact (reaction?_push s reaction r).trans (if_neg (ne_nextReaction hr))
    · have e : r = s.nextReaction := by
        obtain ⟨i⟩ := r
        simp only [newReaction, Array.size_push] at hr hr'
        rw [nextReaction, ReactionId.mk.injEq]
        omega
      rw [e]
      exact List.mem_singleton_self _
  | settle result hc => exact accounts_settle h hc result
  | markHandled p =>
    refine h.undisturbed (.of_reactions hmade (fun q => ?_) hbecomes ?_ ?_ ?_ ?_)
    · by_cases hp : s.Made p
      · rw [promise_markHandled hp]
        split
        · rename_i e
          rw [e]
          cases s.promise p <;> rfl
        · rfl
      · rw [markHandled_of_not_made hp]
    · rw [markHandled_eq]
      split <;> rfl
    · rw [markHandled_eq]
      split <;> rfl
    · rw [consuming]
      split <;> rfl
    · rw [consuming]
      split <;> rfl
  | takeReaction hjobs => exact h.takeFirst hjobs
  | @takeJob job hjobs hjob =>
    refine h.undisturbed (.of_reactions hmade (fun _ => rfl) hbecomes rfl ?_ rfl rfl)
    obtain ⟨rest, hrest⟩ := List.head?_eq_some_iff.1 hjobs
    rw [queue, queue, hrest]
    cases job with
    | react r x => exact absurd rfl (hjob r x)
    | adopt | finishImport => rfl
  | queueImport referrer specifier ticket =>
    exact h.undisturbed (.of_reactions hmade (fun _ => rfl) hbecomes rfl
      (queue_append_other s (.finishImport referrer specifier ticket) (fun _ _ e => by cases e) rfl)
      rfl rfl)

theorem History.accounts (h : (initial h₀).History track ledger es s) : s.Accounts es := by
  induction h with
  | nil => exact accounts_initial h₀
  | snoc _ htick ih => exact htick.accounts ih

/-! ## Each reaction runs once -/

theorem Accounts.nodup_attachedTo (h : s.Accounts es) (p : PromiseId) : (attachedTo es p).Nodup :=
  h.once.sublist (List.filter_sublist.map _)

/-- A reaction is held, queued or has run, and only one of these, once. -/
theorem Accounts.count (h : s.Accounts es) (hr : .attached p r ∈ es) :
    (s.promise p).reactions.count r + (s.queue.map (·.1)).count r +
      ((runsIn es).map (·.1)).count r = 1 := by
  have hamong : ∀ l, (among es p l).count r = (l.map (·.1)).count r := fun l =>
    List.count_filter (decide_eq_true (mem_attachedTo.2 hr))
  have hone : (attachedTo es p).count r = 1 :=
    List.count_eq_one_of_mem (h.nodup_attachedTo p) (mem_attachedTo.2 hr)
  rw [h.order p, among_append, List.count_append, List.count_append, hamong, hamong] at hone
  omega

theorem Accounts.not_mem_runsIn (h : s.Accounts es) {x y : Settlement} (hr : (r, x) ∈ s.queue) :
    (r, y) ∉ runsIn es := by
  intro hy
  obtain ⟨p, hp⟩ := h.known r x (List.mem_append_right _ hr)
  have hcount := h.count hp
  have hqueued : 0 < (s.queue.map (·.1)).count r :=
    List.count_pos_iff.2 (List.mem_map_of_mem (f := fun x => x.1) hr)
  have hran : 0 < ((runsIn es).map (·.1)).count r :=
    List.count_pos_iff.2 (List.mem_map_of_mem (f := fun x => x.1) hy)
  omega

theorem Accounts.reaction_of_queued (h : s.Accounts es) {x : Settlement} (hr : (r, x) ∈ s.queue) :
    ∃ reaction, s.reaction? r = some reaction := by
  obtain ⟨p, hp⟩ := h.known r x (List.mem_append_right _ hr)
  refine Option.ne_none_iff_exists'.1 fun hnone => ?_
  obtain ⟨y, hy⟩ := (h.slot p r hp).1 hnone
  exact h.not_mem_runsIn hr hy

theorem Accounts.reaction (h : s.Accounts es) {x : Settlement}
    (hjobs : s.jobs.head? = some (.react r x)) : ∃ reaction, s.reaction? r = some reaction :=
  h.reaction_of_queued (mem_queue.2 (List.mem_of_mem_head? hjobs))

/-- When no job is queued, a reaction of a settled promise has run with its result. -/
theorem Accounts.idle (h : s.Accounts es) (hjobs : s.jobs = []) {x : Settlement}
    (hr : .attached p r ∈ es) (hx : (s.promise p).settlement? = some x) :
    (runsIn es).filter (·.1 = r) = [(r, x)] := by
  have hqueue : s.queue = [] := by rw [queue, hjobs, List.filterMap_nil]
  have hcount := h.count hr
  rw [PromiseState.reactions_of_settlement hx, hqueue, List.count_nil, List.map_nil, List.count_nil,
    Nat.zero_add, List.count, List.countP_map, List.countP_eq_length_filter] at hcount
  obtain ⟨⟨r', y⟩, hrun⟩ := List.length_eq_one_iff.1 hcount
  have hfilter : (runsIn es).filter (·.1 = r) = [(r', y)] := hrun
  have hmem : (r', y) ∈ (runsIn es).filter (·.1 = r) := hfilter ▸ List.mem_singleton_self _
  obtain ⟨hy, e⟩ := List.mem_filter.1 hmem
  obtain rfl : r' = r := of_decide_eq_true e
  have hresult := h.result p r' y hr (List.mem_append_left _ hy)
  rw [hx] at hresult
  cases hresult
  exact hfilter

/-- Reactions at a machine with this history. -/
structure FiresOnce (es : List Incident) (s : Machine σ κ) : Prop where
  /-- Every reaction was attached to one promise, if it was not lost. -/
  attached : ∀ r : ReactionId, r.index < s.reactions.size →
    (∃ p, .attached p r ∈ es ∧ ∀ q, .attached q r ∈ es → q = p) ∨ .lost r ∈ es
  /-- No reaction was attached twice. -/
  once : ((attachmentsIn es).map (·.2)).Nodup
  /-- A reaction is held by its promise, is queued, or has run. -/
  placed : ∀ p r, .attached p r ∈ es →
    (s.promise p).reactions.count r + (s.queue.map (·.1)).count r +
      ((runsIn es).map (·.1)).count r = 1
  /-- No other promise holds it. -/
  holder : ∀ p q r, .attached p r ∈ es → s.Holds q r → q = p
  /-- Its place is empty just if it has run. -/
  consumed : ∀ p r, .attached p r ∈ es → (s.reaction? r = none ↔ ∃ x, .ran r x ∈ es)
  /-- The next job finds its reaction, and runs its handler. -/
  runs : ∀ r x, s.jobs.head? = some (.react r x) → ∃ reaction, s.reaction? r = some reaction ∧
    ∀ host result s', runNextJob host s = some (result, s') → ∃ result' s₁,
      runHandler host reaction.handler x (s.takeFirst r) = some (result', s₁) ∧
        s' = reaction.capability.elim s₁ fun c => s₁.settle host.track c result'
  /-- The reactions of a promise have run, are queued and are held in the order in which they were
  attached. -/
  order : ∀ p, attachedTo es p =
    among es p (runsIn es) ++ among es p s.queue ++ (s.promise p).reactions
  /-- They run with the result of the promise. -/
  result : ∀ p r x, .attached p r ∈ es → .ran r x ∈ es ∨ .react r x ∈ s.jobs →
    (s.promise p).settlement? = some x
  /-- When no job is queued, those of settled promises have run, each of them once. -/
  idle : s.jobs = [] → ∀ p r x, .attached p r ∈ es → (s.promise p).settlement? = some x →
    (runsIn es).filter (·.1 = r) = [(r, x)]

theorem Accounts.firesOnce (h : s.Accounts es) : s.FiresOnce es where
  attached r hr := (h.all r hr).imp (fun ⟨p, hp⟩ => ⟨p, hp, fun _ hq => h.promise_unique hq hp⟩) id
  once := h.once
  placed _ _ := h.count
  holder _ _ _ hp hq := h.promise_unique (h.holds hq) hp
  consumed p r hp := by
    simp only [h.slot p r hp, mem_runsIn]
  runs r x hjobs := by
    obtain ⟨reaction, hr⟩ := h.reaction hjobs
    obtain ⟨rest, hrest⟩ := List.head?_eq_some_iff.1 hjobs
    refine ⟨reaction, hr, fun host result s' hrun => ?_⟩
    obtain ⟨result', hjob⟩ := runNextJob_job hrest hrun
    exact runJob_react hrest hr hjob
  order p := by rw [← among_append, h.order p]
  result p r x hp hr := h.result p r x hp (List.mem_append.2 (hr.imp mem_runsIn.2 mem_queue.2))
  idle hjobs _ _ _ := h.idle hjobs

/-- Every reaction runs exactly once, and the reactions of a promise run in order. Whatever
operations do is a history, and all this holds at each machine of a history. -/
theorem reactions_fire_once (h : Operates hosts rank track ledger owned) :
    (∀ s s', s.Arises hosts track ledger owned h₀ → s.Uses hosts track ledger owned s' →
      ∃ es es', (initial h₀).History track ledger es s ∧ s.History track ledger es' s') ∧
    ∀ es s, (initial h₀ : Machine σ κ).History track ledger es s → s.FiresOnce es :=
  ⟨fun _ _ hs hs' => h.history hs hs', fun _ _ he => he.accounts.firesOnce⟩

end Machine

open Recorder in
/-- A callback waited for a rejected promise: its reaction has run once, with the reason. -/
theorem reactions_fire_once_rejected :
    Operates hosts (fun _ => 0) host.track id owned ∧
    (Machine.initial []).History host.track id story passedOn ∧
    passedOn.jobs = [] ∧ .attached ⟨0⟩ ⟨0⟩ ∈ story ∧
    passedOn.reaction? ⟨0⟩ = none ∧
    (runsIn story).filter (·.1 = ⟨0⟩) = [(⟨0⟩, .rejected .undefined)] := by
  have hs := (Machine.reactions_fire_once operates).2 story _ history_story
  have hattached : .attached ⟨0⟩ ⟨0⟩ ∈ story := .tail _ (.head _)
  exact ⟨operates, history_story, rfl, hattached,
    (hs.consumed ⟨0⟩ ⟨0⟩ hattached).2 ⟨.rejected .undefined, .tail _ (.tail _ (.head _))⟩,
    hs.idle rfl ⟨0⟩ ⟨0⟩ _ hattached rfl⟩

end ModuleGraph
