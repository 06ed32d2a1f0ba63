import ModuleGraph.Proofs.Histories.Reactions

/-! # Journeys

A history tells what happens to promises and reactions, but not why. A journey is a run of the
machine in longer strides: the job of a promise that follows another one is one stride, and so is
all that a joint wait does with a settlement. It tells besides by whom a promise was settled: by the
host through a capability, by an operation that holds one, or by the promise that it follows. -/

namespace ModuleGraph

variable {σ κ α : Type}

inductive Occurrence where
  | incident (e : Incident)
  /-- A pending promise was made. -/
  | made (promise : PromiseId)
  /-- A promise was made that has this value from the start. -/
  | given (promise : PromiseId) (value : Value)
  /-- The host has settled a promise, or has tried to. -/
  | called (capability : Capability) (result : Except Value Value)
  /-- An operation has. -/
  | answered (capability : Capability) (result : Except Value Value)
  /-- The settlement of the followed promise was passed on. -/
  | passed (promise : PromiseId) (settlement : Settlement)

def Occurrence.incident? : Occurrence → Option Incident
  | .incident e => some e
  | .made _ | .given .. | .called .. | .answered .. | .passed .. => none

def incidentsIn (os : List Occurrence) : List Incident := os.filterMap Occurrence.incident?

@[simp] theorem incidentsIn_append (os os' : List Occurrence) :
    incidentsIn (os ++ os') = incidentsIn os ++ incidentsIn os' := List.filterMap_append

@[simp] theorem incidentsIn_map (es : List Incident) :
    incidentsIn (es.map .incident) = es := by
  rw [incidentsIn, List.filterMap_map]
  exact List.filterMap_some

theorem mem_incidentsIn {os : List Occurrence} {e : Incident} :
    e ∈ incidentsIn os ↔ .incident e ∈ os := by
  rw [incidentsIn, List.mem_filterMap]
  constructor
  · rintro ⟨o, ho, he⟩
    cases o <;> cases he
    exact ho
  · exact fun h => ⟨_, h, rfl⟩

namespace Machine

variable {track : Tracker σ} {ledger : σ → α} {owned : σ → PromiseId → Prop}
variable {s s' s'' : Machine σ κ} {p q : PromiseId} {r : ReactionId} {j : JoinId}
variable {os os' : List Occurrence}

/-! ## Reactions and what they settle -/

def IsJoint (s : Machine σ κ) (p : PromiseId) : Prop :=
  ∃ j : JoinId, j.index < s.joins.size ∧ (s.join j).capability.promise = p

structure Separate (s : Machine σ κ) (p : PromiseId) : Prop where
  made : s.Made p
  apart : ¬s.IsJoint p

/-- What the capability of a reaction is for. One whose handler may throw has a capability; a joint
wait settles its promise itself, a promise that follows another one is settled by the settlement of
that one, and all others settle promises that no joint wait answers for. -/
structure Suits (s : Machine σ κ) (reaction : Reaction κ) : Prop where
  guarded : reaction.capability = none → reaction.handler.canThrow = false
  joined : ∀ j k, reaction.handler = .joined j k → reaction.capability = none
  passing : reaction.handler = .passOn → ∃ p, reaction.capability = some ⟨p, false⟩ ∧ s.Made p
  settles : reaction.handler ≠ .passOn →
    ∀ c, reaction.capability = some c → s.Separate c.promise
  body : ∀ m c code, reaction.handler = .resumeBody m c code → s.Separate c.promise

def attaching (s : Machine σ κ) (p : PromiseId) : Incident :=
  if p.index < s.promises.size then .attached p s.nextReaction else .lost s.nextReaction

/-- What is noted of the reactions of a joint wait, when so many promises were made and the next
reaction has this number. -/
def attachingAll (made next : Nat) : List PromiseId → List Incident
  | [] => []
  | p :: rest =>
    (if p.index < made then .attached p ⟨next⟩ else .lost ⟨next⟩) ::
      attachingAll made (next + 1) rest

def store (s : Machine σ κ) (j : JoinId) (position : Nat) (v : Value) : Machine σ κ :=
  { s with
    joins := s.joins.setIfInBounds j.index
      { s.join j with
        remaining := (s.join j).remaining - 1
        values := (s.join j).values.set position v } }

def fill (s : Machine σ κ) (j : JoinId) (position : Nat) (v : Value) : Machine σ κ :=
  ((s.store j position v).newObject (.ofList ((s.join j).values.set position v))).2

def concluding (s s' : Machine σ κ) (p : PromiseId) : List Occurrence :=
  (s.settling s' p).map .incident

/-! ## Strides -/

inductive Stride (track : Tracker σ) (ledger : σ → α) :
    Machine σ κ → List Occurrence → Machine σ κ → Prop
  | beside {s s' : Machine σ κ} : s.LeavesPromises ledger s' → s'.joins = s.joins →
      Stride track ledger s [] s'
  | newPromise (s : Machine σ κ) :
      Stride track ledger s [.made s.nextPromise] (s.newPromise (.pending [] false)).2
  | newFulfilled (s : Machine σ κ) (v : Value) :
      Stride track ledger s
        [.given s.nextPromise v, .incident (.settled s.nextPromise (.fulfilled v))]
        (s.newFulfilled v).2
  | attach (s : Machine σ κ) (p : PromiseId) {reaction : Reaction κ} : s.Suits reaction →
      reaction.IsPlain →
        Stride track ledger s [.incident (s.attaching p)] (s.attach track p reaction)
  /-- The host uses a capability. -/
  | call (s : Machine σ κ) {c : Capability} (result : Except Value Value) : s.Made c.promise →
      Stride track ledger s
        (.called c result :: s.concluding (s.settle track c result) c.promise)
        (s.settle track c result)
  /-- An operation uses a capability that was entrusted to it. -/
  | answer (s : Machine σ κ) {c : Capability} (result : Except Value Value) :
      s.Separate c.promise →
        Stride track ledger s
          (.answered c result :: s.concluding (s.settle track c result) c.promise)
          (s.settle track c result)
  | markHandled (s : Machine σ κ) (p : PromiseId) :
      Stride track ledger s ((s.consuming p).map .incident) (s.markHandled track p)
  | all (s : Machine σ κ) {promises : List PromiseId} : promises ≠ [] →
      Stride track ledger s
        (.made s.nextPromise ::
          (attachingAll (s.promises.size + 1) s.reactions.size promises).map .incident)
        (s.all track promises).2
  /-- The job of a reaction is started. What its handler does are strides of their own. -/
  | enter {s : Machine σ κ} {r : ReactionId} {x : Settlement} :
      s.jobs.head? = some (.react r x) →
      (∀ reaction, s.reaction? r = some reaction → reaction.IsPlain) →
        Stride track ledger s [.incident (.ran r x)] (s.takeFirst r)
  /-- A settlement is passed on to a promise that follows. -/
  | passOn {s : Machine σ κ} {r : ReactionId} {x : Settlement} {p : PromiseId} :
      s.jobs.head? = some (.react r x) → s.reaction? r = some ⟨.passOn, some ⟨p, false⟩⟩ →
        s.Made p →
        Stride track ledger s
          (.incident (.ran r x) :: .passed p x ::
            (s.takeFirst r).concluding ((s.takeFirst r).settle track ⟨p, false⟩ x.toExcept) p)
          ((s.takeFirst r).settle track ⟨p, false⟩ x.toExcept)
  /-- A joint wait gets one of several values that are missing. -/
  | collect {s : Machine σ κ} {r : ReactionId} {v : Value} {j : JoinId} {k : Nat} :
      s.jobs.head? = some (.react r (.fulfilled v)) →
      s.reaction? r = some ⟨.joined j k, none⟩ → (s.join j).remaining - 1 ≠ 0 →
        Stride track ledger s [.incident (.ran r (.fulfilled v))] ((s.takeFirst r).store j k v)
  /-- It gets the last one, and fulfils its promise with an array of the values. -/
  | complete {s : Machine σ κ} {r : ReactionId} {v o : Value} {j : JoinId} {k : Nat}
      {c : Capability} :
      s.jobs.head? = some (.react r (.fulfilled v)) →
      s.reaction? r = some ⟨.joined j k, none⟩ → (s.join j).remaining - 1 = 0 →
      (s.join j).capability = c → s.Made c.promise → o = .object ⟨s.objects.size⟩ →
        Stride track ledger s
          (.incident (.ran r (.fulfilled v)) :: .answered c (.ok o) ::
            ((s.takeFirst r).fill j k v).concluding
              (((s.takeFirst r).fill j k v).settle track c (.ok o)) c.promise)
          (((s.takeFirst r).fill j k v).settle track c (.ok o))
  /-- One of its promises was rejected. -/
  | giveUp {s : Machine σ κ} {r : ReactionId} {e : Value} {j : JoinId} {k : Nat} {c : Capability} :
      s.jobs.head? = some (.react r (.rejected e)) →
      s.reaction? r = some ⟨.joined j k, none⟩ → (s.join j).capability = c → s.Made c.promise →
        Stride track ledger s
          (.incident (.ran r (.rejected e)) :: .answered c (.error e) ::
            (s.takeFirst r).concluding ((s.takeFirst r).settle track c (.error e)) c.promise)
          ((s.takeFirst r).settle track c (.error e))
  /-- A promise starts to follow another one. -/
  | adopt {s : Machine σ κ} {p q : PromiseId} : s.jobs.head? = some (.adopt p q) → s.Made p →
      Stride track ledger s [.incident (s.attaching q)]
        (({ s with jobs := s.jobs.tail } : Machine σ κ).attach track q
          ⟨.passOn, some ⟨p, false⟩⟩)
  | takeJob {s : Machine σ κ} {referrer : Referrer} {specifier : String} {ticket : TicketId} :
      s.jobs.head? = some (.finishImport referrer specifier ticket) →
        Stride track ledger s [] { s with jobs := s.jobs.tail }
  | queueImport (s : Machine σ κ) (referrer : Referrer) (specifier : String) (ticket : TicketId) :
      Stride track ledger s [] (s.enqueue (.finishImport referrer specifier ticket))

/-! ## Strides are histories -/

theorem all_of_ne_nil (track : Tracker σ) (s : Machine σ κ) {ps : List PromiseId} (h : ps ≠ []) :
    (s.all track ps).2 = (s.newCapability.2.newJoin
      { remaining := ps.length
        values := List.replicate ps.length .undefined
        capability := s.newCapability.1 }).2.attachJoined track ⟨s.joins.size⟩ 0 ps := by
  rw [all]
  dsimp only
  rw [if_neg (by simpa using h)]
  rfl

theorem history_attach (s : Machine σ κ) (p : PromiseId) (reaction : Reaction κ) :
    s.History track ledger [s.attaching p] (s.attach track p reaction) := by
  rw [attaching]
  split
  · exact .single (.attach s reaction ‹_›)
  · exact .single (.lose s reaction ‹_›)

theorem history_attachJoined (ps : List PromiseId) :
    ∀ (s : Machine σ κ) (j : JoinId) (k : Nat), s.History track ledger
      (attachingAll s.promises.size s.reactions.size ps) (s.attachJoined track j k ps) := by
  induction ps with
  | nil => exact fun _ _ _ => .nil
  | cons p rest ih =>
    intro s j k
    have hattached := attach_attached track s p ⟨.joined j k, none⟩
    have hrest := ih (s.attach track p ⟨.joined j k, none⟩) j (k + 1)
    rw [hattached.size, hattached.count] at hrest
    exact (history_attach s p ⟨.joined j k, none⟩).append hrest

theorem history_settle (s : Machine σ κ) {c : Capability} (hc : s.Made c.promise)
    (result : Except Value Value) :
    s.History track ledger (incidentsIn (s.concluding (s.settle track c result) c.promise))
      (s.settle track c result) := by
  rw [concluding, incidentsIn_map]
  exact .single (.settle s result hc)

theorem Stride.history (h : s.Stride track ledger os s') :
    s.History track ledger (incidentsIn os) s' := by
  cases h with
  | beside h _ => exact .single (.aside h)
  | newPromise => exact .single (.newPromise s)
  | newFulfilled v => exact .single (.newFulfilled s v)
  | attach p _ _ => exact history_attach s p _
  | call result hc => exact history_settle s hc result
  | answer result hc => exact history_settle s hc.made result
  | markHandled p =>
    rw [incidentsIn_map]
    exact .single (.markHandled s p)
  | @all promises hne =>
    have hnew : s.History track ledger [] s.newCapability.2 := .single (.newPromise s)
    have hjoin : s.newCapability.2.History track ledger [] (s.newCapability.2.newJoin
        { remaining := promises.length
          values := List.replicate promises.length .undefined
          capability := s.newCapability.1 }).2 := .single (.aside ⟨rfl, rfl, rfl, rfl, rfl⟩)
    have hall := hnew.append (hjoin.append (history_attachJoined promises _ ⟨s.joins.size⟩ 0))
    rw [all_of_ne_nil track s hne]
    refine Eq.mp (congrArg (fun es => s.History track ledger es _) ?_) hall
    rw [incidentsIn, List.filterMap_cons, ← incidentsIn, incidentsIn_map]
    exact congrArg (attachingAll · s.reactions.size promises) (Array.size_push _)
  | enter hjobs _ => exact .single (.takeReaction hjobs)
  | passOn hjobs _ hp =>
    exact (History.single (.takeReaction hjobs)).append (history_settle _ hp _)
  | collect hjobs _ _ =>
    exact (History.single (.takeReaction hjobs)).append (.single (.aside ⟨rfl, rfl, rfl, rfl, rfl⟩))
  | @complete r v o j k c hjobs _ _ _ hc _ =>
    have hfilled : (s.takeFirst r).History track ledger [] ((s.takeFirst r).fill j k v) :=
      .single (.aside ⟨rfl, rfl, rfl, rfl, rfl⟩)
    exact (History.single (.takeReaction hjobs)).append (hfilled.append
      (history_settle ((s.takeFirst r).fill j k v) hc (.ok o)))
  | giveUp hjobs _ _ hc =>
    exact (History.single (.takeReaction hjobs)).append (history_settle (s.takeFirst _) hc _)
  | adopt hjobs _ =>
    exact (History.single (.takeJob hjobs fun _ _ e => by cases e)).append (history_attach _ _ _)
  | takeJob hjobs => exact .single (.takeJob hjobs fun _ _ e => by cases e)
  | queueImport referrer specifier ticket =>
    exact .single (.queueImport s referrer specifier ticket)

/-! ## What strides keep -/

theorem joins_settle (track : Tracker σ) (s : Machine σ κ) (c : Capability)
    (result : Except Value Value) : (s.settle track c result).joins = s.joins := by
  have hsettles : s.Settles (fun _ => []) (s.settle track c result) c.promise :=
    settle_settles s (by exact fun _ _ _ => rfl) c result
  obtain hu | ⟨x, he⟩ | ⟨q, hf⟩ := hsettles
  · exact hu.joins
  · exact he.joins
  · exact hf.joins

theorem joins_attachJoined (track : Tracker σ) (ps : List PromiseId) :
    ∀ (s : Machine σ κ) (j : JoinId) (k : Nat), (s.attachJoined track j k ps).joins = s.joins := by
  induction ps with
  | nil => exact fun _ _ _ => rfl
  | cons p rest ih =>
    exact fun s j k => (ih _ j (k + 1)).trans (attach_attached track s p ⟨.joined j k, none⟩).joins

theorem joins_markHandled (track : Tracker σ) (s : Machine σ κ) (p : PromiseId) :
    (s.markHandled track p).joins = s.joins := by
  rw [markHandled_eq]
  split <;> rfl

theorem join_of_joins (h : s'.joins = s.joins) (j : JoinId) : s'.join j = s.join j := by
  rw [join, h, join]

theorem join_push {new : Join} (h : s'.joins = s.joins.push new) (hj : j.index < s.joins.size) :
    s'.join j = s.join j := by
  rw [join, h, join, Array.getD_eq_getD_getElem?, Array.getD_eq_getD_getElem?,
    Array.getElem?_push_lt hj, Array.getElem?_eq_getElem hj]

theorem capability_store (s : Machine σ κ) (i j : JoinId) (k : Nat) (v : Value) :
    ((s.store i k v).join j).capability = (s.join j).capability := by
  have hcapability : ({ s.join i with
      remaining := (s.join i).remaining - 1
      values := (s.join i).values.set k v } : Join).capability = (s.join i).capability := rfl
  exact capability_setJoin s i hcapability j

/-- Joint waits keep their promises, and a new one has a new promise. -/
inductive KeepsJoins (s s' : Machine σ κ) : Prop
  | same : s'.joins = s.joins → KeepsJoins s s'
  | stored (j : JoinId) (k : Nat) (v : Value) : s'.joins = (s.store j k v).joins → KeepsJoins s s'
  | joined {new : Join} : new.capability = ⟨s.nextPromise, true⟩ →
      s'.joins = s.joins.push new → KeepsJoins s s'

theorem Stride.keepsJoins (h : s.Stride track ledger os s') : s.KeepsJoins s' := by
  cases h with
  | beside _ hjoins => exact .same hjoins
  | newPromise | newFulfilled | enter | takeJob | queueImport => exact .same rfl
  | attach p => exact .same (attach_attached track s p _).joins
  | call result | answer result => exact .same (joins_settle track s _ result)
  | markHandled p => exact .same (joins_markHandled track s p)
  | all hne =>
    rw [all_of_ne_nil track s hne]
    exact .joined rfl (joins_attachJoined track _ _ _ _)
  | passOn => exact .same (joins_settle track _ _ _)
  | @collect r v j k => exact .stored j k v rfl
  | @complete r v o j k => exact .stored j k v (joins_settle track _ _ _)
  | giveUp => exact .same (joins_settle track _ _ _)
  | adopt => exact .same (attach_attached track _ _ _).joins

theorem reactions_settle (track : Tracker σ) (s : Machine σ κ) (c : Capability)
    (result : Except Value Value) : (s.settle track c result).reactions = s.reactions := by
  have hsettles : s.Settles (fun _ => []) (s.settle track c result) c.promise :=
    settle_settles s (by exact fun _ _ _ => rfl) c result
  obtain hu | ⟨x, he⟩ | ⟨q, hf⟩ := hsettles
  · exact hu.reactions
  · exact he.reactions
  · exact hf.reactions

theorem reaction?_of_eq (h : s'.reactions = s.reactions) (r : ReactionId) :
    s'.reaction? r = s.reaction? r := by rw [reaction?, h, reaction?]

theorem reaction?_settle (track : Tracker σ) (s : Machine σ κ) (c : Capability)
    (result : Except Value Value) (r : ReactionId) :
    (s.settle track c result).reaction? r = s.reaction? r :=
  reaction?_of_eq (reactions_settle track s c result) r

/-- The reactions of a joint wait stand next to each other. -/
theorem reaction?_attachJoined (track : Tracker σ) (ps : List PromiseId) :
    ∀ (s : Machine σ κ) (j : JoinId) (k : Nat) (r : ReactionId),
      (s.attachJoined track j k ps).reaction? r =
        if s.reactions.size ≤ r.index ∧ r.index < s.reactions.size + ps.length then
          some ⟨.joined j (k + (r.index - s.reactions.size)), none⟩
        else s.reaction? r := by
  induction ps with
  | nil =>
    intro s j k r
    rw [if_neg (by rw [List.length_nil]; omega)]
    rfl
  | cons p rest ih =>
    intro s j k r
    have hattached := attach_attached track s p ⟨.joined j k, none⟩
    refine (ih _ j (k + 1) r).trans ?_
    rw [hattached.count, hattached.reaction, List.length_cons]
    by_cases e : r.index = s.reactions.size
    · have hr : r = s.nextReaction := by
        cases r
        cases e
        rfl
      rw [if_neg (by omega), if_pos hr, if_pos (by omega), e, Nat.sub_self, Nat.add_zero]
    · have hr : r ≠ s.nextReaction := fun h => e (by rw [h]; rfl)
      rw [if_neg hr]
      by_cases hlt : s.reactions.size ≤ r.index ∧ r.index < s.reactions.size + (rest.length + 1)
      · rw [if_pos (by omega), if_pos hlt]
        congr 3
        omega
      · rw [if_neg (by omega), if_neg hlt]

inductive Attaches (s : Machine σ κ) : Reaction κ → Prop
  | plain {reaction : Reaction κ} : s.Suits reaction → reaction.IsPlain → Attaches s reaction
  | joined (k : Nat) : Attaches s ⟨.joined ⟨s.joins.size⟩ k, none⟩
  | following {p q : PromiseId} : s.jobs.head? = some (.adopt p q) → s.Made p →
      Attaches s ⟨.passOn, some ⟨p, false⟩⟩

theorem Stride.reaction?_cases (h : s.Stride track ledger os s') {reaction : Reaction κ}
    (hr : s'.reaction? r = some reaction) :
    s.reaction? r = some reaction ∨ s.reactions.size ≤ r.index ∧ s.Attaches reaction := by
  have hnew : ∀ {u : Machine σ κ} {q x}, (u.attach track q x).reaction? r = some reaction →
      u.reaction? r = some reaction ∨ u.reactions.size ≤ r.index ∧ x = reaction := by
    intro u q x hx
    rw [reaction?_attach] at hx
    split at hx
    · rename_i e
      exact .inr ⟨by rw [e]; exact le_rfl, Option.some.inj hx⟩
    · exact .inl hx
  cases h with
  | beside h _ => exact .inl (reaction?_of_eq h.reactions r ▸ hr)
  | newPromise | newFulfilled | queueImport | takeJob => exact .inl hr
  | attach p hsuits hplain => exact (hnew hr).imp id fun ⟨hlt, e⟩ => ⟨hlt, e ▸ .plain hsuits hplain⟩
  | call result | answer result => exact .inl (reaction?_settle track s _ result r ▸ hr)
  | markHandled p =>
    refine .inl ?_
    rw [markHandled_eq] at hr
    split at hr <;> exact hr
  | all hne =>
    rw [all_of_ne_nil track s hne, reaction?_attachJoined] at hr
    split at hr
    · rename_i hlt
      cases hr
      exact .inr ⟨hlt.1, .joined _⟩
    · exact .inl hr
  | enter => exact .inl (reaction?_of_takeFirst hr)
  | passOn | giveUp =>
    rw [reaction?_settle] at hr
    exact .inl (reaction?_of_takeFirst hr)
  | collect => exact .inl (reaction?_of_takeFirst hr)
  | complete =>
    rw [reaction?_settle] at hr
    exact .inl (reaction?_of_takeFirst hr)
  | adopt hjobs hp => exact (hnew hr).imp id fun ⟨hlt, e⟩ => ⟨hlt, e ▸ .following hjobs hp⟩

/-! ## Reactions suit their capabilities -/

theorem Stride.made (h : s.Stride track ledger os s') (hp : s.Made p) : s'.Made p :=
  h.history.made hp

theorem KeepsJoins.size (h : s.KeepsJoins s') : s.joins.size ≤ s'.joins.size := by
  cases h with
  | same e => exact e ▸ le_rfl
  | stored i k v e =>
    rw [e, store, Array.size_setIfInBounds]
  | joined _ e =>
    rw [e, Array.size_push]
    exact Nat.le_succ _

theorem KeepsJoins.capability (h : s.KeepsJoins s') (hj : j.index < s.joins.size) :
    (s'.join j).capability = (s.join j).capability := by
  cases h with
  | same e => rw [join_of_joins e]
  | stored i k v e => rw [join_of_joins e, capability_store]
  | joined _ e => rw [join_push e hj]

theorem KeepsJoins.promise (h : s.KeepsJoins s') (hj : j.index < s'.joins.size)
    (hnew : s.joins.size ≤ j.index) : (s'.join j).capability.promise = s.nextPromise := by
  cases h with
  | same e => exact absurd hj (by rw [e]; exact Nat.not_lt.2 hnew)
  | stored i k v e =>
    rw [e, store, Array.size_setIfInBounds] at hj
    exact absurd hj (Nat.not_lt.2 hnew)
  | joined hcapability e =>
    rw [e, Array.size_push] at hj
    rw [join, e, show j.index = s.joins.size by omega, Array.getD_eq_getD_getElem?,
      Array.getElem?_push_size, Option.getD_some, hcapability]

theorem KeepsJoins.isJoint (h : s.KeepsJoins s') (hp : s.Made p) (hj : s'.IsJoint p) :
    s.IsJoint p := by
  obtain ⟨j, hj, hjp⟩ := hj
  by_cases hlt : j.index < s.joins.size
  · exact ⟨j, hlt, by rwa [h.capability hlt] at hjp⟩
  · rw [h.promise hj (Nat.not_lt.1 hlt)] at hjp
    exact absurd hjp.symm (ne_nextPromise hp)

theorem Stride.separate (h : s.Stride track ledger os s') (hp : s.Separate p) : s'.Separate p :=
  ⟨h.made hp.made, fun hj => hp.apart (h.keepsJoins.isJoint hp.made hj)⟩

theorem Suits.mono {reaction : Reaction κ} (h : s.Suits reaction)
    (hmade : ∀ p, s.Made p → s'.Made p) (hseparate : ∀ p, s.Separate p → s'.Separate p) :
    s'.Suits reaction where
  guarded := h.guarded
  joined := h.joined
  passing hh := (h.passing hh).imp fun p hp => ⟨hp.1, hmade p hp.2⟩
  settles hh c hc := hseparate _ (h.settles hh c hc)
  body m c code hh := hseparate _ (h.body m c code hh)

theorem Attaches.suits {reaction : Reaction κ} (h : s.Attaches reaction) : s.Suits reaction := by
  cases h with
  | plain h _ => exact h
  | joined k =>
    exact
      { guarded := fun _ => rfl
        joined := fun _ _ _ => rfl
        passing := nofun
        settles := nofun
        body := nofun }
  | following _ hp =>
    exact
      { guarded := nofun
        joined := nofun
        passing := fun _ => ⟨_, rfl, hp⟩
        settles := fun h => absurd rfl h
        body := nofun }

theorem Stride.suits (h : s.Stride track ledger os s')
    (hs : ∀ r reaction, s.reaction? r = some reaction → s.Suits reaction) (r : ReactionId)
    (reaction : Reaction κ) (hr : s'.reaction? r = some reaction) : s'.Suits reaction := by
  have hsuits : s.Suits reaction :=
    (h.reaction?_cases hr).elim (hs r reaction) fun hnew => hnew.2.suits
  exact hsuits.mono (fun _ => h.made) fun _ => h.separate

/-! ## Journeys -/

/-- Whatever is referred to was made, and only joint waits answer for the promises of joint
waits. -/
structure Orderly (owned : σ → PromiseId → Prop) (s : Machine σ κ) : Prop extends
    s.Grounded owned where
  suits : ∀ r reaction, s.reaction? r = some reaction → s.Suits reaction
  answers : ∀ m p, s.AnswersWith m p → ¬s.IsJoint p
  tickets : ∀ t i, s.import? t = some i → ¬s.IsJoint i.capability.promise

/-- A sequence of strides through orderly machines, with all that occurs in it. -/
inductive Journey (track : Tracker σ) (ledger : σ → α) (owned : σ → PromiseId → Prop)
    (s : Machine σ κ) : List Occurrence → Machine σ κ → Prop
  | nil : Journey track ledger owned s [] s
  | snoc {os os' : List Occurrence} {s' s'' : Machine σ κ} :
      Journey track ledger owned s os s' → s'.Stride track ledger os' s'' → s''.Orderly owned →
        Journey track ledger owned s (os ++ os') s''

namespace Journey

theorem single (h : s.Stride track ledger os s') (hs' : s'.Orderly owned) :
    s.Journey track ledger owned os s' := by
  have hnil : s.Journey track ledger owned [] s := .nil
  have hsnoc := hnil.snoc h hs'
  rwa [List.nil_append] at hsnoc

theorem append (h : s.Journey track ledger owned os s')
    (h' : s'.Journey track ledger owned os' s'') :
    s.Journey track ledger owned (os ++ os') s'' := by
  induction h' with
  | nil =>
    rw [List.append_nil]
    exact h
  | snoc _ hstride hs ih =>
    rw [← List.append_assoc]
    exact ih.snoc hstride hs

theorem history (h : s.Journey track ledger owned os s') :
    s.History track ledger (incidentsIn os) s' := by
  induction h with
  | nil => exact .nil
  | snoc _ hstride _ ih =>
    rw [incidentsIn_append]
    exact ih.append hstride.history

theorem orderly (h : s.Journey track ledger owned os s') (hs : s.Orderly owned) :
    s'.Orderly owned := by
  cases h with
  | nil => exact hs
  | snoc _ _ hs' => exact hs'

theorem separate (h : s.Journey track ledger owned os s') (hp : s.Separate p) :
    s'.Separate p := by
  induction h with
  | nil => exact hp
  | snoc _ hstride _ ih => exact hstride.separate ih

end Journey

end Machine

end ModuleGraph
