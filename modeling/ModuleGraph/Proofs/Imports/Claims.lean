import ModuleGraph.Proofs.Imports.Deeds
import ModuleGraph.Proofs.Runs.View

/-! # Who may settle a promise

Whatever can settle a promise later on has a claim on it: a reaction, a body that waits, a joint
wait, a dynamic import, a job that lets it follow another one, a module, or the host. The promise of
a dynamic import is entrusted to one of them: to its ticket, then to the operation that finishes the
import, and then to the reaction that waits for the evaluation. Nothing else has a claim on it, so
changes that settle only promises with other claims leave it alone. -/

namespace ModuleGraph

variable {σ κ : Type}

/-- A place where something may have a claim on a promise. -/
inductive Claim where
  | reaction (r : ReactionId)
  | body (r : ReactionId)
  | join (j : JoinId)
  | ticket (t : TicketId)
  | follow (followed : PromiseId)
  | module (m : ModuleId)
  | host

/-- Who is to settle the promise of a dynamic import. -/
inductive Keeper where
  /-- The operation that finishes the import. -/
  | operation
  | ticket (t : TicketId)
  /-- The reaction that waits for the promise `followed` of the evaluation of a module. -/
  | reaction (r : ReactionId) (followed : PromiseId) (m : ModuleId)

def Keeper.claim? : Keeper → Option Claim
  | .operation => none
  | .ticket t => some (.ticket t)
  | .reaction r _ _ => some (.reaction r)

namespace Machine

variable {owned : σ → PromiseId → Prop} {also : PromiseId → Keeper → Prop}
variable {s s' : Machine σ κ} {p q : PromiseId} {r : ReactionId} {t : TicketId} {k : Keeper}

def Claims (owned : σ → PromiseId → Prop) (s : Machine σ κ) (p : PromiseId) : Claim → Prop
  | .reaction r => ∃ reaction c,
      s.reaction? r = some reaction ∧ reaction.capability = some c ∧ c.promise = p
  | .body r => ∃ m c code, s.handler? r = some (.resumeBody m c code) ∧ c.promise = p
  | .join j => j.index < s.joins.size ∧ (s.join j).capability.promise = p
  | .ticket t => ∃ i, s.import? t = some i ∧ i.capability.promise = p
  | .follow q => Job.adopt p q ∈ s.jobs
  | .module m => s.AnswersWith m p
  | .host => owned s.host p

structure Placed (s : Machine σ κ) (q : PromiseId) (r : ReactionId) : Prop where
  only : ∀ q', s.Holds q' r → q' = q
  queued : ∀ x, Job.react r x ∈ s.jobs → (s.promise q).settlement? = some x
  placed : s.Holds q r ∨ ∃ x, Job.react r x ∈ s.jobs

end Machine

def Keeper.Keeps (s : Machine σ κ) (p : PromiseId) : Keeper → Prop
  | .operation => True
  | .ticket t => ∃ i, s.import? t = some i ∧ i.capability = ⟨p, true⟩
  | .reaction r q m =>
    s.reaction? r = some ⟨.imported m, some ⟨p, true⟩⟩ ∧ s.Placed q r

namespace Machine

variable {owned : σ → PromiseId → Prop} {also : PromiseId → Keeper → Prop}
variable {s s' : Machine σ κ} {p q : PromiseId} {r : ReactionId} {t : TicketId} {k : Keeper}

/-- A promise that is undecided and on which nobody but its keeper has a claim. -/
structure Entrusted (owned : σ → PromiseId → Prop) (s : Machine σ κ) (p : PromiseId)
    (k : Keeper) : Prop where
  made : s.Made p
  undecided : s.Undecided p
  sole : ∀ c, s.Claims owned p c → k.claim? = some c
  kept : k.Keeps s p

/-- The promises that are looked after: those of open tickets, and those that `also` tells. -/
def Trusts (also : PromiseId → Keeper → Prop) (s : Machine σ κ) (p : PromiseId) (k : Keeper) :
    Prop :=
  also p k ∨ ∃ t i, k = .ticket t ∧ s.import? t = some i ∧ i.capability.promise = p

structure Grounded (owned : σ → PromiseId → Prop) (s : Machine σ κ) : Prop where
  claims : ∀ p c, s.Claims owned p c → s.Made p
  joined : ∀ r j n, s.handler? r = some (.joined j n) → j.index < s.joins.size
  held : ∀ p r, s.Holds p r → r.index < s.reactions.size
  queued : ∀ r x, Job.react r x ∈ s.jobs → r.index < s.reactions.size

structure Trusty (owned : σ → PromiseId → Prop) (also : PromiseId → Keeper → Prop)
    (s : Machine σ κ) : Prop extends s.Grounded owned where
  entrusted : ∀ p k, s.Trusts also p k → s.Entrusted owned p k

/-- A promise that is not looked after: operations may settle it. -/
structure Common (also : PromiseId → Keeper → Prop) (s : Machine σ κ) (p : PromiseId) : Prop where
  made : s.Made p
  apart : ∀ k, ¬s.Trusts also p k

structure Tickets (s s' : Machine σ κ) : Prop where
  size : s.imports.size ≤ s'.imports.size
  kept : ∀ t i, s.import? t = some i → s'.import? t = some i
  opened : ∀ t i, t.index < s.imports.size → s'.import? t = some i → s.import? t = some i
  fresh : ∀ t, s.imports.size ≤ t.index → t.index < s'.imports.size → ∃ i, s'.import? t = some i

theorem lt_of_import? {i : PendingImport} (h : s.import? t = some i) :
    t.index < s.imports.size := by
  obtain ⟨x, hx, -⟩ := Option.bind_eq_some_iff.1 h
  exact (Array.getElem?_eq_some_iff.1 hx).1

theorem Tickets.of_eq (h : s'.imports = s.imports) : s.Tickets s' where
  size := by rw [h]
  kept t i hi := by rwa [import?, h, ← import?]
  opened t i _ hi := by rwa [import?, h, ← import?] at hi
  fresh t ht ht' := absurd ht' (by rw [h]; exact Nat.not_lt.2 ht)

theorem Tickets.trans {s'' : Machine σ κ} (h : s.Tickets s') (h' : s'.Tickets s'') :
    s.Tickets s'' where
  size := h.size.trans h'.size
  kept t i hi := h'.kept t i (h.kept t i hi)
  opened t i ht hi := h.opened t i ht (h'.opened t i (ht.trans_le h.size) hi)
  fresh t ht ht' := by
    by_cases hlt : t.index < s'.imports.size
    · obtain ⟨i, hi⟩ := h.fresh t ht hlt
      exact ⟨i, h'.kept t i hi⟩
    · exact h'.fresh t (Nat.not_lt.1 hlt) ht'

/-- What was settled stays settled, and no ticket was redeemed. -/
structure Upholds (s s' : Machine σ κ) : Prop where
  settled : ∀ p x, (s.promise p).settlement? = some x → (s'.promise p).settlement? = some x
  tickets : s.Tickets s'

/-- What was settled stays settled, and a ticket that was redeemed is not opened again. -/
structure Lasts (s s' : Machine σ κ) : Prop where
  settled : ∀ p x, (s.promise p).settlement? = some x → (s'.promise p).settlement? = some x
  size : s.imports.size ≤ s'.imports.size
  imports : ∀ t i, t.index < s.imports.size → s'.import? t = some i → s.import? t = some i

theorem Upholds.lasts (h : s.Upholds s') : s.Lasts s' :=
  ⟨h.settled, h.tickets.size, h.tickets.opened⟩

theorem Lasts.refl (s : Machine σ κ) : s.Lasts s := ⟨fun _ _ => id, le_rfl, fun _ _ _ => id⟩

theorem Lasts.trans {s'' : Machine σ κ} (h : s.Lasts s') (h' : s'.Lasts s'') : s.Lasts s'' where
  settled p x hx := h'.settled p x (h.settled p x hx)
  size := h.size.trans h'.size
  imports t i ht hi := h.imports t i ht (h'.imports t i (ht.trans_le h.size) hi)

def trust (owned : σ → PromiseId → Prop) (also : PromiseId → Keeper → Prop) : Terms σ κ where
  known s := s.Trusty owned also
  may s
    | .promise p => s.Common also p
    | .module _ | .request .. | .found _ => True
  change s s' := s.Trusty owned also →
    s'.Trusty owned also ∧ (∀ p, s.Common also p → s'.Common also p) ∧ s.Upholds s'

theorem trust_composes : Composes (trust (κ := κ) owned also).change where
  refl s h := ⟨h, fun _ => id, fun _ _ => id, .of_eq rfl⟩
  trans h h' hs := by
    obtain ⟨h₁, hc₁, hl₁⟩ := h hs
    obtain ⟨h₂, hc₂, hl₂⟩ := h' h₁
    exact ⟨h₂, fun p hp => hc₂ p (hc₁ p hp), fun p x hx => hl₂.settled p x (hl₁.settled p x hx),
      hl₁.tickets.trans hl₂.tickets⟩

/-! ## Changes that leave entrusted promises alone -/

/-- A change in which no promise that is looked after is settled, claimed or lost, and in which only
new promises come to be looked after. -/
structure Harmless (owned : σ → PromiseId → Prop) (also : PromiseId → Keeper → Prop)
    (s s' : Machine σ κ) : Prop where
  made : ∀ p, s.Made p → s'.Made p
  undecided : ∀ p k, s.Trusts also p k → s.Undecided p → s'.Undecided p
  claims : ∀ p c, s'.Claims owned p c → s.Claims owned p c ∨ s'.Made p ∧ ∀ k, ¬s.Trusts also p k
  kept : ∀ p k, s.Trusts also p k → s'.Trusts also p k → k.Keeps s p → k.Keeps s' p
  trusts : ∀ p k, s'.Trusts also p k →
    s.Trusts also p k ∨ ¬s.Made p ∧ s'.Entrusted owned p k
  joined : ∀ r j n, s'.handler? r = some (.joined j n) → j.index < s'.joins.size
  held : ∀ p r, s'.Holds p r → r.index < s'.reactions.size
  queued : ∀ r x, Job.react r x ∈ s'.jobs → r.index < s'.reactions.size

theorem Harmless.trusty (h : s.Harmless owned also s') (hs : s.Trusty owned also) :
    s'.Trusty owned also where
  claims p c hc := (h.claims p c hc).elim (fun hc => h.made p (hs.claims p c hc)) (·.1)
  joined := h.joined
  held := h.held
  queued := h.queued
  entrusted p k hp := by
    obtain hp' | ⟨-, he⟩ := h.trusts p k hp
    · have he := hs.entrusted p k hp'
      refine ⟨h.made p he.made, h.undecided p k hp' he.undecided, fun c hc => ?_,
        h.kept p k hp' hp he.kept⟩
      exact (h.claims p c hc).elim (he.sole c) fun e => absurd hp' (e.2 k)
    · exact he

theorem Harmless.common (h : s.Harmless owned also s') (hp : s.Common also p) :
    s'.Common also p :=
  ⟨h.made p hp.made, fun k hk => (h.trusts p k hk).elim (hp.apart k) fun e => e.1 hp.made⟩

theorem Harmless.change (hupholds : s.Upholds s')
    (h : s.Trusty owned also → s.Harmless owned also s') : (trust owned also).change s s' :=
  fun hs => ⟨(h hs).trusty hs, fun _ => (h hs).common, hupholds⟩

/-- A claim is where it was, or what is new is harmless. -/
theorem claims_cases {X : Prop} (hreactions : s'.reactions = s.reactions)
    (hjoin : ∀ j, s'.Claims owned p (.join j) → s.Claims owned p (.join j) ∨ X)
    (hticket : ∀ t, s'.Claims owned p (.ticket t) → s.Claims owned p (.ticket t) ∨ X)
    (hfollow : ∀ q, s'.Claims owned p (.follow q) → s.Claims owned p (.follow q) ∨ X)
    (hmodule : ∀ m, s'.Claims owned p (.module m) → s.Claims owned p (.module m) ∨ X)
    (hhost : owned s'.host p → owned s.host p ∨ X) :
    ∀ c, s'.Claims owned p c → s.Claims owned p c ∨ X := by
  have hreaction : ∀ r, s'.reaction? r = s.reaction? r := fun r => by
    rw [reaction?, hreactions, reaction?]
  intro c hc
  cases c with
  | reaction r =>
    obtain ⟨reaction, c, hr, h⟩ := hc
    exact .inl ⟨reaction, c, hreaction r ▸ hr, h⟩
  | body r =>
    obtain ⟨m, c, code, hr, h⟩ := hc
    exact .inl ⟨m, c, code, by rwa [handler?, hreaction, ← handler?] at hr, h⟩
  | join j => exact hjoin j hc
  | ticket t => exact hticket t hc
  | follow q => exact hfollow q hc
  | module m => exact hmodule m hc
  | host => exact hhost hc

structure Still (s s' : Machine σ κ) : Prop where
  made : ∀ p, s.Made p → s'.Made p
  settlement : ∀ p, s.Made p → (s'.promise p).settlement? = (s.promise p).settlement?
  held : ∀ p r, s'.Holds p r ↔ s.Holds p r
  reactions : s'.reactions = s.reactions
  joins : s.joins.size ≤ s'.joins.size
  tickets : s.Tickets s'
  queued : ∀ r x, Job.react r x ∈ s'.jobs ↔ Job.react r x ∈ s.jobs

theorem made_of_settlement {x : Settlement} (h : (s.promise p).settlement? = some x) :
    s.Made p := by
  refine made_of_resolved fun hu => ?_
  rw [← PromiseState.phase_snd, hu] at h
  cases h

theorem Still.upholds (h : s.Still s') : s.Upholds s' where
  settled p x hx := by rwa [h.settlement p (made_of_settlement hx)]
  tickets := h.tickets

theorem Still.placed (h : s.Still s') (hr : s.Placed q r) : s'.Placed q r where
  only q' hq := hr.only q' ((h.held q' r).1 hq)
  queued x hx := h.upholds.settled q x (hr.queued x ((h.queued r x).1 hx))
  placed := hr.placed.imp (h.held q r).2 fun ⟨x, hx⟩ => ⟨x, (h.queued r x).2 hx⟩

theorem Still.harmless (h : s.Still s') (hs : s.Trusty owned also)
    (hundecided : ∀ p k, s.Trusts also p k → s.Undecided p → s'.Undecided p)
    (hclaims : ∀ p c, s'.Claims owned p c →
      s.Claims owned p c ∨ s'.Made p ∧ ∀ k, ¬s.Trusts also p k)
    (htrusts : ∀ p k, s'.Trusts also p k →
      s.Trusts also p k ∨ ¬s.Made p ∧ s'.Entrusted owned p k) : s.Harmless owned also s' where
  made := h.made
  undecided := hundecided
  claims := hclaims
  kept p k _ _ hk := by
    cases k with
    | operation => trivial
    | ticket t =>
      obtain ⟨i, hi, hc⟩ := hk
      exact ⟨i, h.tickets.kept t i hi, hc⟩
    | reaction r q m => exact ⟨by rw [reaction?, h.reactions, ← reaction?, hk.1], h.placed hk.2⟩
  trusts := htrusts
  joined r j n hr := by
    rw [handler?, reaction?, h.reactions, ← reaction?, ← handler?] at hr
    exact (hs.joined r j n hr).trans_le h.joins
  held p r hr := by
    rw [h.reactions]
    exact hs.held p r ((h.held p r).1 hr)
  queued r x hr := by
    rw [h.reactions]
    exact hs.queued r x ((h.queued r x).1 hr)

theorem trusts_of_imports (h : s'.imports = s.imports) (p : PromiseId) (k : Keeper)
    (hp : s'.Trusts also p k) :
    s.Trusts also p k ∨ ¬s.Made p ∧ s'.Entrusted owned p k := by
  refine .inl (hp.imp id ?_)
  rintro ⟨t, i, hk, hi, hc⟩
  rw [import?, h, ← import?] at hi
  exact ⟨t, i, hk, hi, hc⟩

/-! ## Changes beside the promises -/

/-- Only the modules, what the host keeps and things of no account differ. -/
theorem change_modules (hpromises : s'.promises = s.promises)
    (hreactions : s'.reactions = s.reactions) (hjoins : s'.joins = s.joins)
    (himports : s'.imports = s.imports) (hjobs : s'.jobs = s.jobs)
    (hanswers : ∀ m p, s'.AnswersWith m p → s.AnswersWith m p ∨ s.Common also p)
    (howned : ∀ p, owned s'.host p → owned s.host p) : (trust owned also).change s s' := by
  have hpromise : ∀ p, s'.promise p = s.promise p := fun p => by
    rw [promise, hpromises, promise]
  have hstill : s.Still s' :=
    { made := fun p hp => by rwa [Made, hpromises]
      settlement := fun p _ => by rw [hpromise]
      held := fun p r => by rw [Holds, hpromise, Holds]
      reactions := hreactions
      joins := by rw [hjoins]
      tickets := .of_eq himports
      queued := fun r x => by rw [hjobs] }
  refine Harmless.change hstill.upholds fun hs => hstill.harmless hs
    (fun p k _ hp => by rwa [Undecided, hpromise]) (fun p => ?_) (trusts_of_imports himports)
  refine claims_cases hreactions (fun j hj => .inl ?_) (fun t ht => .inl ?_)
    (fun q hq => .inl ?_) (fun m hm => (hanswers m p hm).imp id fun hp => ?_)
    fun hp => .inl (howned p hp)
  · obtain ⟨hlt, hc⟩ := hj
    rw [join, hjoins, ← join] at hc
    exact ⟨hjoins ▸ hlt, hc⟩
  · obtain ⟨i, hi, hc⟩ := ht
    exact ⟨i, by rwa [import?, himports, ← import?] at hi, hc⟩
  · have hq : Job.adopt p q ∈ s'.jobs := hq
    rwa [hjobs] at hq
  · exact ⟨by rw [Made, hpromises]; exact hp.made, hp.apart⟩

theorem Apart.change (h : s.Apart owned s') : (trust owned also).change s s' :=
  change_modules h.promises h.reactions h.joins h.imports h.jobs
    (fun m p hp => .inl (h.answers m p hp)) h.owned

theorem answersWith_of_modules (h : s'.modules = s.modules) {m : ModuleId}
    (hm : s'.AnswersWith m p) : s.AnswersWith m p := by
  have hmodule : s'.module m = s.module m := by rw [module, h, module]
  rwa [AnswersWith, cyclic, cyclic?, hmodule, ← cyclic?, ← cyclic] at hm

theorem Incidental.change (h : s.Incidental s') : (trust owned also).change s s' :=
  change_modules h.promises h.reactions h.joins h.imports h.jobs
    (fun _ _ hm => .inl (answersWith_of_modules h.modules hm)) fun _ hp => h.host ▸ hp

/-- An update of one module that gives it no new promise, or one that operations may settle. -/
theorem change_updateModule (s : Machine σ κ) (m : ModuleId) {f : Module → Module}
    (hf : ∀ x : Module, ∀ p, (f x).kind.AnswersWith p → x.kind.AnswersWith p ∨ s.Common also p) :
    (trust owned also).change s (s.updateModule m f) :=
  change_modules rfl rfl rfl rfl rfl (fun _ p => answersWith_updateModule fun x => hf x p)
    fun _ => id

end Machine

end ModuleGraph
