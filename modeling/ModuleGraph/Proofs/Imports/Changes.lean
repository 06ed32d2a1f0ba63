import ModuleGraph.Proofs.Imports.Claims

/-! # Changes that leave entrusted promises alone

Each small change that operations are made of leaves the entrusted promises alone, as long as it
settles and claims other promises only. So do whole operations, since they settle only promises
that they have made or found, and an entrusted promise can be found at its keeper only. -/

namespace ModuleGraph

open Relation

variable {σ κ : Type}

namespace Machine

variable {owned : σ → PromiseId → Prop} {also : PromiseId → Keeper → Prop} {track : Tracker σ}
variable {s s' : Machine σ κ} {p q : PromiseId} {r : ReactionId} {t : TicketId} {k : Keeper}

/-- What becomes of promises gives the host no promise. -/
theorem owned_of_aside (ht : track.Discreet owned)
    (h : s.Aside track s') (hp : owned s'.host p) : owned s.host p := by
  obtain ⟨-, hh⟩ := h
  generalize s'.host = h' at hh hp
  induction hh with
  | refl => exact hp
  | tail _ e ih =>
    obtain ⟨q, e, rfl⟩ := e
    exact ih (ht _ _ _ _ hp)

/-- The promises of modules, of joint waits and of imports are the same. -/
theorem claims_beside {X : Prop} (hmodules : s'.modules = s.modules) (hjoins : s'.joins = s.joins)
    (himports : s'.imports = s.imports) (howned : owned s'.host p → owned s.host p)
    (hreaction : ∀ r, s'.Claims owned p (.reaction r) → s.Claims owned p (.reaction r) ∨ X)
    (hbody : ∀ r, s'.Claims owned p (.body r) → s.Claims owned p (.body r) ∨ X)
    (hfollow : ∀ q, s'.Claims owned p (.follow q) → s.Claims owned p (.follow q) ∨ X) :
    ∀ c, s'.Claims owned p c → s.Claims owned p c ∨ X := by
  intro c hc
  cases c with
  | reaction r => exact hreaction r hc
  | body r => exact hbody r hc
  | join j =>
    obtain ⟨hj, hc⟩ := hc
    rw [join, hjoins, ← join] at hc
    exact .inl ⟨hjoins ▸ hj, hc⟩
  | ticket t =>
    obtain ⟨i, hi, hc⟩ := hc
    rw [import?, himports, ← import?] at hi
    exact .inl ⟨i, hi, hc⟩
  | follow q => exact hfollow q hc
  | module m => exact .inl (answersWith_of_modules hmodules hc)
  | host => exact .inl (howned hc)

theorem claims_reaction (h : s'.reactions = s.reactions) (r : ReactionId)
    (hr : s'.Claims owned p (.reaction r)) : s.Claims owned p (.reaction r) := by
  obtain ⟨reaction, c, hr, hc⟩ := hr
  exact ⟨reaction, c, by rwa [reaction?, h, ← reaction?] at hr, hc⟩

theorem claims_body (h : s'.reactions = s.reactions) (r : ReactionId)
    (hr : s'.Claims owned p (.body r)) : s.Claims owned p (.body r) := by
  obtain ⟨m, c, code, hr, hc⟩ := hr
  exact ⟨m, c, code, by rwa [handler?, reaction?, h, ← reaction?, ← handler?] at hr, hc⟩

/-! ## Something new -/

theorem made_nextPromise (s : Machine σ κ) (st : PromiseState) :
    (s.newPromise st).2.Made s.nextPromise := by
  simp [Made, newPromise, nextPromise]

theorem still_newPromise (s : Machine σ κ) {st : PromiseState} (hst : st.reactions = []) :
    s.Still (s.newPromise st).2 := by
  have hpromise : ∀ p, s.Made p → (s.newPromise st).2.promise p = s.promise p :=
    fun p hp => (promise_newPromise s st p).trans (if_neg (ne_nextPromise hp))
  refine ⟨fun p => made_newPromise st, fun p hp => by rw [hpromise p hp], fun p r => ?_, rfl,
    le_rfl, .of_eq rfl, fun _ _ => Iff.rfl⟩
  by_cases hp : s.Made p
  · rw [Holds, hpromise p hp, Holds]
  · refine iff_of_false (fun hr => ?_) fun hr => hp (made_of_holds hr)
    rw [Holds, promise_newPromise] at hr
    split at hr
    · rw [hst] at hr
      cases hr
    · exact hp (made_of_holds hr)

theorem undecided_newPromise (st : PromiseState) (hp : s.Made p) (hu : s.Undecided p) :
    (s.newPromise st).2.Undecided p := by
  rwa [Undecided, promise_newPromise, if_neg (ne_nextPromise hp)]

/-- A new promise, with another state of the host that may own it. -/
theorem change_newPromise (s : Machine σ κ) {st : PromiseState} (h : σ) (hst : st.reactions = [])
    (howned : ∀ p, owned h p → owned s.host p ∨ p = s.nextPromise) :
    (trust owned also).change s ((s.newPromise st).2.setHost h) := by
  have hnew := still_newPromise s hst
  have hstill : s.Still ((s.newPromise st).2.setHost h) :=
    ⟨hnew.made, hnew.settlement, hnew.held, rfl, le_rfl, .of_eq rfl, hnew.queued⟩
  refine Harmless.change hstill.upholds fun hs => hstill.harmless hs (fun p k hp hu => ?_)
    (fun p => ?_) (trusts_of_imports rfl)
  · exact undecided_newPromise st (hs.entrusted p k hp).made hu
  · refine claims_cases rfl (fun _ => .inl) (fun _ => .inl) (fun _ => .inl) (fun _ => .inl)
      fun hp => (howned p hp).imp id ?_
    rintro rfl
    exact ⟨made_nextPromise s st, fun k hk =>
      not_made_nextPromise s (hs.entrusted _ k hk).made⟩

theorem change_newJoin (s : Machine σ κ) {j : Join} (hj : s.Common also j.capability.promise) :
    (trust owned also).change s (s.newJoin j).2 := by
  have hstill : s.Still (s.newJoin j).2 :=
    ⟨fun _ hp => hp, fun _ _ => rfl, fun _ _ => Iff.rfl, rfl, by simp [newJoin], .of_eq rfl,
      fun _ _ => Iff.rfl⟩
  refine Harmless.change hstill.upholds fun hs => hstill.harmless hs (fun _ _ _ hu => hu)
    (fun p => ?_) (trusts_of_imports rfl)
  refine claims_cases rfl ?_ (fun _ => .inl) (fun _ => .inl) (fun _ => .inl) .inl
  rintro ⟨i⟩ ⟨hi, hp⟩
  by_cases e : i = s.joins.size
  · subst e
    have hp : j.capability.promise = p := by simpa [newJoin, join] using hp
    exact .inr (hp ▸ ⟨hj.made, hj.apart⟩)
  · refine .inl ⟨?_, ?_⟩
    · simp only [newJoin, Array.size_push] at hi
      simp only
      omega
    · simpa [newJoin, join, Array.getD_eq_getD_getElem?, Array.getElem?_push, e] using hp

theorem import?_newImport (s : Machine σ κ) (i : PendingImport) (t : TicketId) :
    (s.newImport i).2.import? t = if t.index = s.imports.size then some i else s.import? t := by
  rw [import?, newImport, import?]
  by_cases e : t.index = s.imports.size
  · rw [if_pos e, e, Array.getElem?_push_size]
    rfl
  · rw [if_neg e, Array.getElem?_push, if_neg e]

theorem import?_openImport (s : Machine σ κ) (referrer : Referrer) (specifier : String)
    (t : TicketId) : (s.openImport referrer specifier).import? t =
      if t.index = s.imports.size then some ⟨referrer, specifier, ⟨s.nextPromise, true⟩⟩
      else s.import? t := by
  exact import?_newImport s.newCapability.2 _ t

theorem tickets_openImport (s : Machine σ κ) (referrer : Referrer) (specifier : String) :
    s.Tickets (s.openImport referrer specifier) := by
  have hsize : (s.openImport referrer specifier).imports.size = s.imports.size + 1 :=
    Array.size_push _
  refine ⟨by rw [hsize]; exact Nat.le_succ _, fun t i hi => ?_, fun t i ht hi => ?_,
    fun t ht ht' => ?_⟩
  · rwa [import?_openImport, if_neg (Nat.ne_of_lt (lt_of_import? hi))]
  · rwa [import?_openImport, if_neg (Nat.ne_of_lt ht)] at hi
  · rw [hsize] at ht'
    exact ⟨_, by rw [import?_openImport, if_pos (by omega)]⟩

/-- The new ticket is the only thing that has a claim on the new promise. -/
theorem claims_openImport {referrer : Referrer} {specifier : String} {c : Claim}
    (hc : (s.openImport referrer specifier).Claims owned p c) :
    s.Claims owned p c ∨ c = .ticket ⟨s.imports.size⟩ ∧ p = s.nextPromise := by
  cases c with
  | ticket t =>
    obtain ⟨i, hi, rfl⟩ := hc
    rw [import?_openImport] at hi
    split at hi
    · rename_i e
      cases hi
      exact .inr ⟨by rw [← e], rfl⟩
    · exact .inl ⟨i, hi, rfl⟩
  | reaction r => exact .inl hc
  | body r => exact .inl hc
  | join j => exact .inl hc
  | follow q => exact .inl hc
  | module m => exact .inl hc
  | host => exact .inl hc

/-- A new ticket, with a new promise that is entrusted to it. -/
theorem change_openImport (s : Machine σ κ) (referrer : Referrer) (specifier : String) :
    (trust owned also).change s (s.openImport referrer specifier) := by
  have hnew : s.Still s.newCapability.2 := still_newPromise s rfl
  have hstill : s.Still (s.openImport referrer specifier) :=
    ⟨hnew.made, hnew.settlement, hnew.held, rfl, le_rfl, tickets_openImport s referrer specifier,
      hnew.queued⟩
  refine Harmless.change hstill.upholds fun hs => hstill.harmless hs (fun p k hp hu => ?_)
    (fun p c hc => (claims_openImport hc).imp id ?_) ?_
  · exact undecided_newPromise _ (hs.entrusted p k hp).made hu
  · rintro ⟨-, rfl⟩
    exact ⟨made_nextPromise s _, fun k hk => not_made_nextPromise s (hs.entrusted _ k hk).made⟩
  · rintro p k (hp | ⟨t, i, rfl, hi, hp⟩)
    · exact .inl (.inl hp)
    have hi' := hi
    rw [import?_openImport] at hi'
    split at hi'
    · rename_i e
      obtain ⟨n⟩ := t
      subst e
      cases hi'
      subst hp
      refine .inr ⟨not_made_nextPromise s, made_nextPromise s _, ?_, fun c hc => ?_, _, hi, rfl⟩
      · exact congrArg PromiseState.phase ((promise_newPromise s _ _).trans (if_pos rfl))
      · obtain hc | ⟨rfl, -⟩ := claims_openImport hc
        · exact absurd (hs.claims _ c hc) (not_made_nextPromise s)
        · rfl
    · exact .inl (.inr ⟨t, i, rfl, hi', hp⟩)

/-! ## Settling -/

theorem Unmoved.still (hu : s.Unmoved (fun _ => []) s') : s.Still s' where
  made p hp := by rwa [Made, hu.size]
  settlement p _ := settlement?_of_phase (hu.phase p)
  held p r := by rw [Holds, hu.held, Holds]
  reactions := hu.reactions
  joins := by rw [hu.joins]
  tickets := .of_eq hu.imports
  queued r x := by rw [hu.jobs]

theorem Unmoved.claims (hu : s.Unmoved (fun _ => []) s')
    (howned : owned s'.host p → owned s.host p) (c : Claim) (hc : s'.Claims owned p c) :
    s.Claims owned p c := by
  refine (claims_beside (X := False) hu.modules hu.joins hu.imports howned
    (fun r hr => .inl (claims_reaction hu.reactions r hr))
    (fun r hr => .inl (claims_body hu.reactions r hr)) (fun q hq => .inl ?_) c hc).resolve_right id
  have hq : Job.adopt p q ∈ s'.jobs := hq
  rwa [hu.jobs] at hq

theorem Follows.still (hf : s.Follows (fun _ => []) s' p q) : s.Still s' where
  made p hp := by rwa [Made, hf.size]
  settlement p _ := hf.settled p
  held p r := by rw [Holds, hf.held, Holds]
  reactions := hf.reactions
  joins := by rw [hf.joins]
  tickets := .of_eq hf.imports
  queued r x := by simp [hf.jobs]

theorem Follows.claims {p' : PromiseId} (hf : s.Follows (fun _ => []) s' p q)
    (howned : owned s'.host p' → owned s.host p') (c : Claim) (hc : s'.Claims owned p' c) :
    s.Claims owned p' c ∨ p' = p := by
  refine claims_beside hf.modules hf.joins hf.imports howned
    (fun r hr => .inl (claims_reaction hf.reactions r hr))
    (fun r hr => .inl (claims_body hf.reactions r hr)) (fun q' hq => ?_) c hc
  have hq : Job.adopt p' q' ∈ s'.jobs := hq
  rw [hf.jobs] at hq
  obtain hq | hq := List.mem_append.1 hq
  · exact .inl hq
  · cases List.mem_singleton.1 hq
    exact .inr rfl

section Ended

variable {x : Settlement} (he : s.Ended (fun _ => []) s' p x)
include he

theorem Ended.claims (howned : owned s'.host q → owned s.host q) (c : Claim)
    (hc : s'.Claims owned q c) : s.Claims owned q c := by
  refine (claims_beside (X := False) he.modules he.joins he.imports howned
    (fun r hr => .inl (claims_reaction he.reactions r hr))
    (fun r hr => .inl (claims_body he.reactions r hr)) (fun q' hq => .inl ?_) c hc).resolve_right id
  have hq : Job.adopt q q' ∈ s'.jobs := hq
  rw [he.jobs] at hq
  refine (List.mem_append.1 hq).resolve_right fun hq => ?_
  obtain ⟨r, -, e⟩ := List.mem_map.1 hq
  cases e

theorem Ended.grounded (hs : s.Grounded owned)
    (howned : ∀ p, owned s'.host p → owned s.host p) : s'.Grounded owned where
  claims q c hc := by
    have hq := hs.claims q c (he.claims (howned q) c hc)
    rwa [Made, he.size]
  joined r j n hr := by
    rw [he.handler?] at hr
    rw [he.joins]
    exact hs.joined r j n hr
  held q r hr := by
    rw [he.reactions]
    exact hs.held q r ((he.held q r).1 hr).1
  queued r y hr := by
    rw [he.reactions]
    obtain hr | ⟨hr, -⟩ := he.mem_jobs hr
    · exact hs.queued r y hr
    · exact hs.held p r hr

end Ended

theorem change_unmoved (hu : s.Unmoved (fun _ => []) s')
    (howned : ∀ p, owned s'.host p → owned s.host p) : (trust owned also).change s s' := by
  refine Harmless.change hu.still.upholds fun hs => hu.still.harmless hs (fun p k _ hp => ?_)
    (fun p c hc => .inl (hu.claims (howned p) c hc)) (trusts_of_imports hu.imports)
  rw [Undecided, hu.phase]
  exact hp

/-- A promise that is not looked after follows another one. -/
theorem change_follows (hf : s.Follows (fun _ => []) s' p q)
    (howned : ∀ p, owned s'.host p → owned s.host p) (hp : s.Common also p) :
    (trust owned also).change s s' := by
  refine Harmless.change hf.still.upholds fun hs => hf.still.harmless hs (fun p' k hk hu => ?_)
    (fun p' c hc => (hf.claims (howned p') c hc).imp id ?_) (trusts_of_imports hf.imports)
  · rw [Undecided, hf.other p']
    · exact hu
    · rintro rfl
      exact hp.apart k hk
  · rintro rfl
    exact ⟨hf.still.made _ hp.made, hp.apart⟩

theorem change_ended {x : Settlement} (he : s.Ended (fun _ => []) s' p x)
    (howned : ∀ p, owned s'.host p → owned s.host p) (hp : s.Common also p) :
    (trust owned also).change s s' := by
  have hsettled : ∀ q y, (s.promise q).settlement? = some y →
      (s'.promise q).settlement? = some y := by
    intro q y hq
    rw [settlement?_of_phase (he.other q _), hq]
    rintro rfl
    rw [he.pending] at hq
    cases hq
  have hx : (s'.promise p).settlement? = some x := by
    rw [← PromiseState.phase_snd, he.settled hp.made]
  refine Harmless.change ⟨hsettled, .of_eq he.imports⟩ fun hs => ?_
  have hg := he.grounded hs.toGrounded howned
  exact
    { made := fun q hq => by rwa [Made, he.size]
      undecided := fun q k hk hu => by
        rw [Undecided, he.other q]
        · exact hu
        · rintro rfl
          exact hp.apart k hk
      claims := fun q c hc => .inl (he.claims (howned q) c hc)
      kept := fun q k _ _ hkept => by
        cases k with
        | operation => trivial
        | ticket t =>
          obtain ⟨i, hi, hc⟩ := hkept
          exact ⟨i, by rwa [import?, he.imports, ← import?], hc⟩
        | reaction r f m =>
          obtain ⟨hr, hplaced⟩ := hkept
          refine ⟨by rw [he.reaction?, hr], ⟨fun q' hq => hplaced.only q' ((he.held q' r).1 hq).1,
            fun y hy => ?_, ?_⟩⟩
          · obtain hy | ⟨hh, rfl⟩ := he.mem_jobs hy
            · exact hsettled f y (hplaced.queued y hy)
            · rwa [← hplaced.only p hh]
          · obtain hh | ⟨y, hy⟩ := hplaced.placed
            · by_cases e : f = p
              · refine .inr ⟨x, ?_⟩
                rw [he.jobs]
                exact List.mem_append_right _ (List.mem_map.2 ⟨r, e ▸ hh, rfl⟩)
              · exact .inl ((he.held f r).2 ⟨hh, e⟩)
            · refine .inr ⟨y, ?_⟩
              rw [he.jobs]
              exact List.mem_append_left _ hy
      trusts := trusts_of_imports he.imports
      joined := hg.joined
      held := hg.held
      queued := hg.queued }

theorem change_settle (ht : track.Discreet owned) (s : Machine σ κ)
    {c : Capability} (result : Except Value Value) (hc : s.Common also c.promise) :
    (trust owned also).change s (s.settle track c result) := by
  have howned : ∀ p, owned (s.settle track c result).host p → owned s.host p :=
    fun p => owned_of_aside ht (s.aside_settle c result)
  have hs : s.Settles (fun _ => []) (s.settle track c result) c.promise :=
    settle_settles s (by exact fun _ _ _ => rfl) c result
  obtain hu | ⟨x, he⟩ | ⟨q, hf⟩ := hs
  · exact change_unmoved hu howned
  · exact change_ended he howned hc
  · exact change_follows hf howned hc

theorem change_markHandled (ht : track.Discreet owned) (s : Machine σ κ)
    (p : PromiseId) : (trust owned also).change s (s.markHandled track p) := by
  have hu : s.Unmoved (fun _ => []) (s.markHandled track p) :=
    .markHandled (by exact fun _ _ _ => rfl) s p
  exact change_unmoved hu fun _ => owned_of_aside ht (s.aside_markHandled p)

/-! ## Attaching -/

theorem attach_attached (track : Tracker σ) (s : Machine σ κ) (p : PromiseId)
    (reaction : Reaction κ) :
    s.Attached (fun _ => []) (s.attach track p reaction) p reaction :=
  attached (by exact fun _ _ _ => rfl) s p reaction

/-- A new reaction brings the claims of its capability, and of the body that it goes on with. -/
theorem Attached.claims {reaction : Reaction κ} {c : Claim}
    (h : s.Attached (fun _ => []) s' q reaction) (howned : owned s'.host p → owned s.host p)
    (hc : s'.Claims owned p c) : s.Claims owned p c ∨
      (c = .reaction s.nextReaction ∧ ∃ d, reaction.capability = some d ∧ d.promise = p) ∨
      c = .body s.nextReaction ∧
        ∃ m d code, reaction.handler = .resumeBody m d code ∧ d.promise = p := by
  cases c with
  | reaction r =>
    obtain ⟨reaction', d, hr, hd⟩ := hc
    rw [h.reaction] at hr
    split at hr
    · rename_i e
      cases hr
      exact .inr (.inl ⟨congrArg Claim.reaction e, d, hd⟩)
    · exact .inl ⟨reaction', d, hr, hd⟩
  | body r =>
    obtain ⟨m, d, code, hr, hd⟩ := hc
    obtain ⟨rfl, e⟩ | ⟨-, hr⟩ := h.cases hr
    · exact .inr (.inr ⟨rfl, m, d, code, e.symm, hd⟩)
    · exact .inl ⟨m, d, code, hr, hd⟩
  | join j =>
    obtain ⟨hj, hd⟩ := hc
    rw [join, h.joins, ← join] at hd
    exact .inl ⟨h.joins ▸ hj, hd⟩
  | ticket t =>
    obtain ⟨i, hi, hd⟩ := hc
    rw [import?, h.imports, ← import?] at hi
    exact .inl ⟨i, hi, hd⟩
  | follow f =>
    refine .inl ((h.mem_jobs hc).resolve_right ?_)
    rintro ⟨x, hx⟩
    cases hx
  | module m => exact .inl (answersWith_of_modules h.modules hc)
  | host => exact .inl (howned hc)

theorem Attached.placed_old {reaction : Reaction κ} (h : s.Attached (fun _ => []) s' p reaction)
    (hr : r.index < s.reactions.size) (hplaced : s.Placed q r) : s'.Placed q r where
  only q' hq := hplaced.only q' (h.holds_of_ne (ne_nextReaction hr) hq)
  queued x hx := by
    rw [settlement?_of_phase (h.phase q)]
    refine hplaced.queued x ((h.mem_jobs hx).resolve_right ?_)
    rintro ⟨y, hy⟩
    cases hy
    exact ne_nextReaction hr rfl
  placed := hplaced.placed.imp h.holds_of_holds fun ⟨x, hx⟩ => ⟨x, h.jobs_of_mem hx⟩

theorem Attached.keeps {reaction : Reaction κ} (h : s.Attached (fun _ => []) s' q reaction)
    (hk : k.Keeps s p) : k.Keeps s' p := by
  cases k with
  | operation => trivial
  | ticket t =>
    obtain ⟨i, hi, hc⟩ := hk
    exact ⟨i, by rwa [import?, h.imports, ← import?], hc⟩
  | reaction r f m =>
    obtain ⟨hr, hplaced⟩ := hk
    have hlt := lt_of_reaction? hr
    exact ⟨by rw [h.reaction, if_neg (ne_nextReaction hlt), hr], h.placed_old hlt hplaced⟩

theorem Attached.grounded {reaction : Reaction κ} (hs : s.Grounded owned)
    (h : s.Attached (fun _ => []) s' q reaction) (howned : ∀ p, owned s'.host p → owned s.host p)
    (hcapability : ∀ c, reaction.capability = some c → s.Made c.promise)
    (hbody : ∀ m c code, reaction.handler = .resumeBody m c code → s.Made c.promise)
    (hjoined : ∀ j n, reaction.handler = .joined j n → j.index < s.joins.size) :
    s'.Grounded owned where
  claims p c hc := by
    obtain hc | ⟨-, d, hd, rfl⟩ | ⟨-, m, d, code, hd, rfl⟩ := h.claims (howned p) hc
    · exact h.made (hs.claims p c hc)
    · exact h.made (hcapability d hd)
    · exact h.made (hbody m d code hd)
  joined r j n hr := by
    rw [h.joins]
    obtain ⟨-, e⟩ | ⟨-, hr⟩ := h.cases hr
    · exact hjoined j n e.symm
    · exact hs.joined r j n hr
  held p r hr := by
    rw [h.count]
    by_cases e : r = s.nextReaction
    · rw [e]
      exact Nat.lt_succ_self _
    · exact Nat.lt_succ_of_lt (hs.held p r (h.holds_of_ne e hr))
  queued r x hr := by
    rw [h.count]
    obtain hr | ⟨y, hy⟩ := h.mem_jobs hr
    · exact Nat.lt_succ_of_lt (hs.queued r x hr)
    · cases hy
      exact Nat.lt_succ_self _

theorem Attached.upholds {reaction : Reaction κ} (h : s.Attached (fun _ => []) s' q reaction) :
    s.Upholds s' where
  settled p x hx := by rwa [settlement?_of_phase (h.phase p)]
  tickets := .of_eq h.imports

/-- A reaction that has claims on other promises only is attached. -/
theorem change_attach (ht : track.Discreet owned) (s : Machine σ κ)
    (p : PromiseId) {reaction : Reaction κ}
    (hcapability : ∀ c, reaction.capability = some c → s.Common also c.promise)
    (hbody : ∀ m c code, reaction.handler = .resumeBody m c code → s.Common also c.promise)
    (hjoined : ∀ j n, reaction.handler = .joined j n → j.index < s.joins.size) :
    (trust owned also).change s (s.attach track p reaction) := by
  have ha := attach_attached track s p reaction
  have howned : ∀ q, owned (s.attach track p reaction).host q → owned s.host q :=
    fun q => owned_of_aside ht (s.aside_attach p reaction)
  refine Harmless.change ha.upholds fun hs => ?_
  have hg := ha.grounded hs.toGrounded howned (fun c hc => (hcapability c hc).made)
    (fun m c code hc => (hbody m c code hc).made) hjoined
  exact
    { made := fun q => ha.made
      undecided := fun q k _ hu => by rwa [Undecided, ha.phase]
      claims := fun q c hc => by
        obtain hc | ⟨-, d, hd, rfl⟩ | ⟨-, m, d, code, hd, rfl⟩ := ha.claims (howned q) hc
        · exact .inl hc
        · exact .inr ⟨ha.made (hcapability d hd).made, (hcapability d hd).apart⟩
        · exact .inr ⟨ha.made (hbody m d code hd).made, (hbody m d code hd).apart⟩
      kept := fun q k _ _ hk => ha.keeps hk
      trusts := trusts_of_imports ha.imports
      joined := hg.joined
      held := hg.held
      queued := hg.queued }

theorem change_attachJoined (ht : track.Discreet owned) {j : JoinId}
    (ps : List PromiseId) : ∀ (s : Machine σ κ) (position : Nat), j.index < s.joins.size →
      (trust owned also).change s (s.attachJoined track j position ps) := by
  induction ps with
  | nil => exact fun s _ _ => trust_composes.refl s
  | cons p rest ih =>
    intro s position hj
    rw [attachJoined]
    refine trust_composes.trans (change_attach ht s p (fun _ e => ?_) (fun _ _ _ e => ?_)
      fun _ _ e => ?_) (ih _ _ ?_)
    · cases e
    · cases e
    · cases e
      exact hj
    · rwa [(attach_attached track s p _).joins]

/-! ## Joint waits and jobs -/

theorem change_setJoin (s : Machine σ κ) (j : JoinId) {new : Join}
    (hnew : new.capability = (s.join j).capability) :
    (trust owned also).change s { s with joins := s.joins.setIfInBounds j.index new } := by
  have hstill : s.Still { s with joins := s.joins.setIfInBounds j.index new } :=
    ⟨fun _ hp => hp, fun _ _ => rfl, fun _ _ => Iff.rfl, rfl, by simp, .of_eq rfl,
      fun _ _ => Iff.rfl⟩
  refine Harmless.change hstill.upholds fun hs => hstill.harmless hs (fun _ _ _ hu => hu)
    (fun p => ?_) (trusts_of_imports rfl)
  refine claims_cases rfl ?_ (fun _ => .inl) (fun _ => .inl) (fun _ => .inl) .inl
  rintro i ⟨hi, hp⟩
  rw [capability_setJoin s j hnew i] at hp
  exact .inl ⟨by simpa using hi, hp⟩

theorem change_queueImport (s : Machine σ κ) (referrer : Referrer) (specifier : String)
    (ticket : TicketId) :
    (trust owned also).change s (s.enqueue (.finishImport referrer specifier ticket)) := by
  have hstill : s.Still (s.enqueue (.finishImport referrer specifier ticket)) :=
    ⟨fun _ hp => hp, fun _ _ => rfl, fun _ _ => Iff.rfl, rfl, le_rfl, .of_eq rfl,
      fun _ _ => by simp [enqueue]⟩
  refine Harmless.change hstill.upholds fun hs => hstill.harmless hs (fun _ _ _ hu => hu)
    (fun p => ?_) (trusts_of_imports rfl)
  refine claims_cases rfl (fun _ => .inl) (fun _ => .inl) (fun q hq => .inl ?_) (fun _ => .inl) .inl
  have hq : Job.adopt p q ∈ s.jobs ++ [.finishImport referrer specifier ticket] := hq
  change Job.adopt p q ∈ s.jobs
  simpa using hq

/-! ## Taking -/

theorem handler_less (hreactions : ∀ r x, s'.reaction? r = some x → s.reaction? r = some x)
    {h : Handler κ} (hr : s'.handler? r = some h) : s.handler? r = some h := by
  obtain ⟨x, hx, rfl⟩ := Option.map_eq_some_iff.1 hr
  rw [handler?, hreactions r x hx, Option.map_some]

theorem claims_less (hmodules : s'.modules = s.modules)
    (hreactions : ∀ r x, s'.reaction? r = some x → s.reaction? r = some x)
    (hjoins : s'.joins = s.joins)
    (himports : ∀ t i, s'.import? t = some i → s.import? t = some i)
    (hjobs : ∀ job ∈ s'.jobs, job ∈ s.jobs) (hhost : s'.host = s.host) (p : PromiseId) (c : Claim)
    (hc : s'.Claims owned p c) : s.Claims owned p c := by
  cases c with
  | reaction r =>
    obtain ⟨x, d, hr, hd⟩ := hc
    exact ⟨x, d, hreactions r x hr, hd⟩
  | body r =>
    obtain ⟨m, d, code, hr, hd⟩ := hc
    exact ⟨m, d, code, handler_less hreactions hr, hd⟩
  | join j =>
    obtain ⟨hj, hd⟩ := hc
    rw [join, hjoins, ← join] at hd
    exact ⟨hjoins ▸ hj, hd⟩
  | ticket t =>
    obtain ⟨i, hi, hd⟩ := hc
    exact ⟨i, himports t i hi, hd⟩
  | follow q => exact hjobs _ hc
  | module m => exact answersWith_of_modules hmodules hc
  | host =>
    have hc : owned s'.host p := hc
    rwa [hhost] at hc

/-- Things are taken away, but no keeper of a promise that is still looked after. -/
theorem harmless_less (hmodules : s'.modules = s.modules) (hpromises : s'.promises = s.promises)
    (hreactions : ∀ r x, s'.reaction? r = some x → s.reaction? r = some x)
    (hsize : s'.reactions.size = s.reactions.size) (hjoins : s'.joins = s.joins)
    (himports : ∀ t i, s'.import? t = some i → s.import? t = some i)
    (hjobs : ∀ job ∈ s'.jobs, job ∈ s.jobs) (hhost : s'.host = s.host)
    (hkept : ∀ p k, s'.Trusts also p k → k.Keeps s p → k.Keeps s' p) (hs : s.Trusty owned also) :
    s.Harmless owned also s' := by
  have hpromise : ∀ p, s'.promise p = s.promise p := fun p => by rw [promise, hpromises, promise]
  exact
    { made := fun p hp => by rwa [Made, hpromises]
      undecided := fun p k _ hu => by rwa [Undecided, hpromise]
      claims := fun p c hc =>
        .inl (claims_less hmodules hreactions hjoins himports hjobs hhost p c hc)
      kept := fun p k _ => hkept p k
      trusts := fun p k hp =>
        .inl (hp.imp id (Exists.imp fun t => Exists.imp fun i h =>
          ⟨h.1, himports t i h.2.1, h.2.2⟩))
      joined := fun r j n hr => by
        rw [hjoins]
        exact hs.joined r j n (handler_less hreactions hr)
      held := fun p r hr => by
        rw [Holds, hpromise] at hr
        rw [hsize]
        exact hs.held p r hr
      queued := fun r x hr => by
        rw [hsize]
        exact hs.queued r x (hjobs _ hr) }

theorem Placed.less (h : s.Placed q r) (hpromises : s'.promises = s.promises)
    (hjobs : ∀ job ∈ s'.jobs, job ∈ s.jobs)
    (hr : ∀ x, Job.react r x ∈ s.jobs → Job.react r x ∈ s'.jobs) : s'.Placed q r := by
  have hpromise : ∀ p, s'.promise p = s.promise p := fun p => by rw [promise, hpromises, promise]
  refine ⟨fun q' hq => h.only q' ?_, fun x hx => ?_, h.placed.imp ?_ (Exists.imp hr)⟩
  · rwa [Holds, hpromise] at hq
  · rw [hpromise]
    exact h.queued x (hjobs _ hx)
  · rw [Holds, Holds, hpromise]
    exact id

theorem reaction?_of_takeFirst {r' : ReactionId} {x : Reaction κ}
    (hr : (s.takeFirst r).reaction? r' = some x) : s.reaction? r' = some x := by
  rw [reaction?_takeFirst] at hr
  split at hr
  · cases hr
  · exact hr

/-- The job of a reaction is taken, unless the reaction keeps a promise that is looked after. -/
theorem harmless_takeFirst {x : Settlement} (hjobs : s.jobs.head? = some (.react r x))
    (halso : ∀ p f m, ¬also p (.reaction r f m)) (hs : s.Trusty owned also) :
    s.Harmless owned also (s.takeFirst r) := by
  refine harmless_less rfl rfl (fun _ _ => reaction?_of_takeFirst) (by simp [takeFirst]) rfl
    (fun _ _ hi => hi) (fun _ => List.mem_of_mem_tail) rfl (fun p k hp hk => ?_) hs
  cases k with
  | operation => trivial
  | ticket t => exact hk
  | reaction r' f m =>
    have hne : r' ≠ r := by
      rintro rfl
      obtain hp | ⟨t, i, e, -⟩ := hp
      · exact halso p f m hp
      · cases e
    refine ⟨by rw [reaction?_takeFirst, if_neg hne, hk.1],
      hk.2.less rfl (fun _ => List.mem_of_mem_tail) fun y hy => ?_⟩
    obtain ⟨rest, hrest⟩ := List.head?_eq_some_iff.1 hjobs
    rw [hrest] at hy
    change Job.react r' y ∈ s.jobs.tail
    rw [hrest]
    refine (List.mem_cons.1 hy).resolve_left fun e => hne ?_
    cases e
    rfl

theorem change_takeFirst {x : Settlement} (hjobs : s.jobs.head? = some (.react r x))
    (halso : ∀ p f m, ¬also p (.reaction r f m)) :
    (trust owned also).change s (s.takeFirst r) :=
  Harmless.change ⟨fun _ _ => id, .of_eq rfl⟩ (harmless_takeFirst hjobs halso)

theorem change_takeJob {job : Job} (hjobs : s.jobs.head? = some job)
    (hjob : ∀ r x, job ≠ .react r x) :
    (trust owned also).change s { s with jobs := s.jobs.tail } := by
  refine Harmless.change ⟨fun _ _ => id, .of_eq rfl⟩ (harmless_less rfl rfl (fun _ _ hr => hr)
    rfl rfl (fun _ _ hi => hi) (fun _ => List.mem_of_mem_tail) rfl fun p k hp hk => ?_)
  cases k with
  | operation => trivial
  | ticket t => exact hk
  | reaction r f m =>
    refine ⟨hk.1, hk.2.less rfl (fun _ => List.mem_of_mem_tail) fun y hy => ?_⟩
    obtain ⟨rest, hrest⟩ := List.head?_eq_some_iff.1 hjobs
    rw [hrest] at hy
    change Job.react r y ∈ s.jobs.tail
    rw [hrest]
    exact (List.mem_cons.1 hy).resolve_left fun e => hjob r y e.symm

theorem import?_taken (s : Machine σ κ) (t t' : TicketId) :
    ({ s with imports := s.imports.setIfInBounds t.index none } : Machine σ κ).import? t' =
      if t' = t then none else s.import? t' := by
  obtain ⟨n⟩ := t
  obtain ⟨n'⟩ := t'
  simp only [import?, Array.getElem?_setIfInBounds, TicketId.mk.injEq]
  by_cases e : n = n'
  · subst e
    simp only [if_true]
    split <;> rfl
  · rw [if_neg e, if_neg (Ne.symm e)]

/-- The import behind a ticket is taken, unless the ticket keeps a promise that is looked after
beyond it. -/
theorem harmless_takeImport (t : TicketId) (halso : ∀ p, ¬also p (.ticket t))
    (hs : s.Trusty owned also) : s.Harmless owned also (s.takeImport t).2 := by
  rw [takeImport]
  split
  · refine harmless_less rfl rfl (fun _ _ hr => hr) rfl rfl (fun t' i hi => ?_)
      (fun _ hj => hj) rfl (fun p k hp hk => ?_) hs
    · rw [import?_taken] at hi
      split at hi
      · cases hi
      · exact hi
    · cases k with
      | operation => trivial
      | reaction r f m => exact ⟨hk.1, hk.2.less rfl (fun _ hj => hj) fun _ hj => hj⟩
      | ticket t' =>
        have hne : t' ≠ t := by
          rintro rfl
          obtain hp | ⟨t, i, e, hi, -⟩ := hp
          · exact halso p hp
          · cases e
            rw [import?_taken, if_pos rfl] at hi
            cases hi
        obtain ⟨i, hi, hc⟩ := hk
        exact ⟨i, by rw [import?_taken, if_neg hne, hi], hc⟩
  · exact harmless_less rfl rfl (fun _ _ hr => hr) rfl rfl (fun _ _ hi => hi) (fun _ hj => hj) rfl
      (fun _ _ _ hk => hk) hs

theorem lasts_takeImport (s : Machine σ κ) (t : TicketId) : s.Lasts (s.takeImport t).2 := by
  rw [takeImport]
  split
  · refine ⟨fun _ _ => id, by simp, fun t' i _ hi => ?_⟩
    rw [import?_taken] at hi
    split at hi
    · cases hi
    · exact hi
  · exact .refl s

/-! ## Promises that may be settled -/

/-- A promise on which something else than a keeper has a claim is not looked after. -/
theorem Trusty.common {c : Claim} (hs : s.Trusty owned also) (hc : s.Claims owned p c)
    (hk : ∀ k, k.claim? = some c → ¬s.Trusts also p k) : s.Common also p :=
  ⟨hs.claims p c hc, fun k hp => hk k ((hs.entrusted p k hp).sole c hc) hp⟩

theorem Trusty.common_of_ne {c : Claim} (hs : s.Trusty owned also) (hc : s.Claims owned p c)
    (hne : ∀ k : Keeper, k.claim? ≠ some c) : s.Common also p :=
  hs.common hc fun k hk => absurd hk (hne k)

theorem Trusty.common_of_reaction (hs : s.Trusty owned also) {reaction : Reaction κ}
    {c : Capability} (hr : s.reaction? r = some reaction) (hc : reaction.capability = some c)
    (halso : ∀ p f m, ¬also p (.reaction r f m)) : s.Common also c.promise := by
  have hclaim : s.Claims owned c.promise (.reaction r) := ⟨reaction, c, hr, hc, rfl⟩
  refine hs.common hclaim fun k hk hp => ?_
  cases k with
  | operation => cases hk
  | ticket t => cases hk
  | reaction r' f m =>
    cases hk
    obtain hp | ⟨t, i, e, -⟩ := hp
    · exact halso _ f m hp
    · cases e

theorem Trusty.common_nextPromise (hs : s.Trusty owned also) (st : PromiseState) :
    (s.newPromise st).2.Common also s.nextPromise where
  made := made_nextPromise s st
  apart _ hk := not_made_nextPromise s (hs.entrusted _ _ hk).made

/-- The promise of an import whose ticket has been taken. -/
theorem Trusty.common_takeImport (hs : s.Trusty owned also) {i : PendingImport}
    (hi : s.import? t = some i) (halso : ∀ p, ¬also p (.ticket t)) :
    (s.takeImport t).2.Common also i.capability.promise := by
  rw [takeImport, hi]
  have hclaim : s.Claims owned i.capability.promise (.ticket t) := ⟨i, hi, rfl⟩
  refine ⟨hs.claims _ _ hclaim, fun k hk => ?_⟩
  have hk' : s.Trusts also i.capability.promise k := by
    refine hk.imp id (Exists.imp fun t' => Exists.imp fun i' h => ⟨h.1, ?_, h.2.2⟩)
    have hi' := h.2.1
    rw [import?_taken] at hi'
    split at hi'
    · cases hi'
    · exact hi'
  have hsole := (hs.entrusted _ k hk').sole _ hclaim
  cases k with
  | operation => cases hsole
  | reaction r f m => cases hsole
  | ticket t' =>
    cases hsole
    obtain hk | ⟨t', i', e, hi', -⟩ := hk
    · exact halso _ hk
    · cases e
      rw [import?_taken, if_pos rfl] at hi'
      cases hi'

end Machine

end ModuleGraph
