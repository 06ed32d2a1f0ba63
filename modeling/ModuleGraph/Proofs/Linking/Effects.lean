import ModuleGraph.Proofs.Exports.Visits
import ModuleGraph.Proofs.Operations.Linking

/-! # What a link makes of each module

A link gives a module its environment or its instance when all requests of the module were visited,
and leaves it alone from then on, whatever becomes of the rest of the link. So what holds of each
module that was just initialized holds of everything that a link leaves linked. Nothing happens to
the modules that the link does not reach. -/

namespace ModuleGraph

variable {σ κ : Type}

structure Linkage where
  environment : Option Environment
  instantiated : Bool
  hasAwait : Bool
  deriving DecidableEq, Repr

namespace ModuleKind

def linkage : ModuleKind → Linkage
  | .source _ env c => ⟨env, false, c.hasAwait⟩
  | .foreign i c => ⟨none, i, c.hasAwait⟩
  | .leaf _ => ⟨none, false, false⟩

/-- Two kinds of which a link makes the second from the first when it does not initialize the
module: the environment stays or is dropped. -/
structure Relabels (k k' : ModuleKind) : Prop where
  leads : k.SameLeads k'
  hasAwait : k'.linkage.hasAwait = k.linkage.hasAwait
  environment : k'.environment? = k.environment? ∨ k'.environment? = none

theorem linkage_environment (k : ModuleKind) : k.linkage.environment = k.environment? := by
  cases k <;> rfl

theorem linkage_of_record? {k : ModuleKind} {record : SourceRecord} (h : k.record? = some record) :
    k.linkage = ⟨k.environment?, false, k.linkage.hasAwait⟩ := by
  cases k with
  | source r env c => rfl
  | foreign i c => cases h
  | leaf state => cases h

theorem linkage_updateCyclic {f : Cyclic → Cyclic} (hf : ∀ c, (f c).hasAwait = c.hasAwait)
    (k : ModuleKind) : (k.updateCyclic f).linkage = k.linkage := by
  cases k <;> simp [updateCyclic, linkage, hf]

theorem Relabels.text {k k' : ModuleKind} (h : k.Relabels k') : k.SameText k' := h.leads.sameText

theorem relabels_updateCyclic {f : Cyclic → Cyclic} (hf : ∀ c, (f c).leads = c.leads)
    (hw : ∀ c, (f c).hasAwait = c.hasAwait) (k : ModuleKind) : k.Relabels (k.updateCyclic f) where
  leads := sameLeads_updateCyclic hf k
  hasAwait := by rw [linkage_updateCyclic hw]
  environment := .inl (environment?_updateCyclic f k)

theorem relabels_takeBack (k : ModuleKind) : k.Relabels (Machine.takeBack k) := by
  cases k with
  | source r env c => exact ⟨⟨rfl, rfl, nofun⟩, rfl, .inr rfl⟩
  | foreign i c => exact ⟨⟨rfl, rfl, nofun⟩, rfl, .inl rfl⟩
  | leaf state => exact ⟨⟨rfl, rfl, fun _ e => e⟩, rfl, .inl rfl⟩

end ModuleKind

namespace Machine

def linkage (s : Machine σ κ) (m : ModuleId) : Linkage := (s.module m).kind.linkage

variable {journal : σ → Journal} {reached : ModuleId → Prop} {made : ModuleId → Linkage → Prop}
variable {s s₁ s₂ s' : Machine σ κ} {m x : ModuleId}

/-- Only modules that take part in cycles are being linked. -/
theorem cyclic?_of_linking (h : s.status m = .linking) :
    ∃ c, s.cyclic? m = some c ∧ c.status = .linking := by
  rw [status] at h
  rw [cyclic?_eq]
  cases hk : (s.module m).kind with
  | source r env c => exact ⟨c, rfl, by rw [hk] at h; exact h⟩
  | foreign i c => exact ⟨c, rfl, by rw [hk] at h; exact h⟩
  | leaf state =>
    rw [hk] at h
    cases state <;> cases h

theorem linkage_updateCyclic {f : Cyclic → Cyclic} (hf : ∀ c, (f c).hasAwait = c.hasAwait)
    (s : Machine σ κ) (m x : ModuleId) : (s.updateCyclic m f).linkage x = s.linkage x := by
  by_cases hm : s.Has m
  · rw [linkage, kind_updateCyclic f hm, linkage]
    split
    · exact ModuleKind.linkage_updateCyclic hf _
    · rfl
  · rw [updateCyclic, updateKind, updateModule_of_not_has _ hm]

theorem linkage_linked (cycle : List ModuleId) (s : Machine σ κ) (x : ModuleId) :
    (cycle.foldl (fun s x => s.setStatus x .linked) s).linkage x = s.linkage x := by
  induction cycle generalizing s with
  | nil => rfl
  | cons y rest ih =>
    exact (ih _).trans
      (linkage_updateCyclic (f := fun c => { c with status := .linked }) (fun _ => rfl) s y x)

/-- What a part of a link does to the modules. Those that the link has opened or linked before keep
what they are made of, and those that it does not reach stay wholly as they are. What is newly
linked is as it is made. -/
structure Tended (reached : ModuleId → Prop) (made : ModuleId → Linkage → Prop)
    (s s' : Machine σ κ) : Prop where
  has : ∀ x, s.Has x → s'.Has x
  marked : ∀ x, s.status x ≠ .unlinked → s'.status x ≠ .unlinked ∧ s'.linkage x = s.linkage x
  opened : ∀ x, s.status x = .linking → s'.status x = .linking
  untouched : ∀ x, s.Has x → ¬reached x → s'.status x = s.status x ∧ s'.linkage x = s.linkage x
  linked : ∀ x, (s'.status x).IsLinked → (s.status x).IsLinked ∨ made x (s'.linkage x)

namespace Tended

theorem composes (reached : ModuleId → Prop) (made : ModuleId → Linkage → Prop) :
    Composes (Machine.Tended (σ := σ) (κ := κ) reached made) where
  refl _ := ⟨fun _ => id, fun _ h => ⟨h, rfl⟩, fun _ => id, fun _ _ _ => ⟨rfl, rfl⟩, fun _ => .inl⟩
  trans {s₁ s₂ s₃} h h' :=
    { has := fun x hx => h'.has x (h.has x hx)
      marked := fun x hx => by
        obtain ⟨hu, hl⟩ := h.marked x hx
        obtain ⟨hu', hl'⟩ := h'.marked x hu
        exact ⟨hu', hl'.trans hl⟩
      opened := fun x hx => h'.opened x (h.opened x hx)
      untouched := fun x hx hr => by
        obtain ⟨hs, hl⟩ := h.untouched x hx hr
        obtain ⟨hs', hl'⟩ := h'.untouched x (h.has x hx) hr
        exact ⟨hs'.trans hs, hl'.trans hl⟩
      linked := fun x hx => by
        refine (h'.linked x hx).elim (fun hx₂ => ?_) .inr
        refine (h.linked x hx₂).imp id fun hmade => ?_
        rwa [(h'.marked x fun e => by rw [e] at hx₂; exact hx₂).2] }

/-- A change that leaves what the modules are made of, as far as a link tells. -/
theorem of_status (hhas : ∀ x, s.Has x → s'.Has x) (hl : ∀ x, s'.linkage x = s.linkage x)
    (hs : ∀ x, s'.status x = s.status x) : s.Tended reached made s' where
  has := hhas
  marked x hx := ⟨by rwa [hs], hl x⟩
  opened x hx := by rwa [hs]
  untouched x _ _ := ⟨hs x, hl x⟩
  linked x hx := .inl (by rwa [hs] at hx)

theorem of_keeps (h : s.Keeps journal (fun _ => False) s') : s.Tended reached made s' := by
  have hkind := fun x hx => h.kind x hx id
  have hnew : ∀ x, ¬s.Has x → s'.status x = .unlinked := fun x hx =>
    (h.made x hx id).isUnlinked.status_eq
  have hhas : ∀ x, s.status x ≠ .unlinked → s.Has x := fun _ => has_of_status_ne
  refine ⟨h.has, fun x hx => ?_, fun x hx => ?_, fun x hx _ => ?_, fun x hx => .inl ?_⟩
  · rw [status, linkage, hkind x (hhas x hx)]
    exact ⟨hx, rfl⟩
  · rw [status, hkind x (hhas x (by rw [hx]; exact Status.noConfusion)), ← status, hx]
  · rw [status, linkage, hkind x hx]
    exact ⟨rfl, rfl⟩
  · by_cases hh : s.Has x
    · rwa [status, hkind x hh] at hx
    · rw [hnew x hh] at hx
      exact hx.elim

theorem of_unlinked (hhas : ∀ x, s.Has x → s'.Has x) (hu : s.status m = .unlinked)
    (hr : reached m) (hm : (s'.status m).IsLinked → made m (s'.linkage m))
    (hother : ∀ x, x ≠ m → (s'.module x).kind = (s.module x).kind) :
    s.Tended reached made s' := by
  have hne : ∀ x, s.status x ≠ .unlinked → (s'.module x).kind = (s.module x).kind :=
    fun x hx => hother x fun e => hx (e ▸ hu)
  refine ⟨hhas, fun x hx => ?_, fun x hx => ?_, fun x _ hr' => ?_, fun x hx => ?_⟩
  · rw [status, linkage, hne x hx]
    exact ⟨hx, rfl⟩
  · rw [status, hne x (by rw [hx]; exact Status.noConfusion), ← status, hx]
  · rw [status, linkage, hother x fun e => hr' (e ▸ hr)]
    exact ⟨rfl, rfl⟩
  · by_cases e : x = m
    · exact .inr (e ▸ hm (e ▸ hx))
    · rw [status, hother x e] at hx
      exact .inl hx

theorem leaf (hm : s.Has m) (hk : (s.module m).kind = .leaf .unlinked) (hr : reached m)
    (hmade : made m (ModuleKind.leaf .linked).linkage) {f : ModuleKind → ModuleKind}
    (hf : f (.leaf .unlinked) = .leaf .linked) : s.Tended reached made (s.updateKind m f) := by
  refine .of_unlinked (m := m) (fun x hx => by simpa using hx) ?_ hr (fun _ => ?_) fun x hx => ?_
  · rw [status, hk]
    rfl
  · rwa [linkage, kind_updateKind f hm, if_pos rfl, hk, hf]
  · rw [kind_updateKind f hm, if_neg hx]

/-- A module that was unlinked when the part of the link started, and is open, is initialized. -/
theorem initialized (h : s.Tended reached made s₁) (hu : s.status m = .unlinked) (hr : reached m)
    {c : Cyclic} (hc : s₁.cyclic? m = some c) (ho : c.status = .linking)
    (hk : s₁.Keeps journal (· = m) s₂) : s.Tended reached made s₂ := by
  have hhas : ∀ x, s₁.status x ≠ .unlinked → s₁.Has x := fun _ => has_of_status_ne
  have hopen : s₁.status m = .linking := (status_of_cyclic? hc).trans ho
  have hm : s₁.Has m := hhas m (by rw [hopen]; exact Status.noConfusion)
  have hself : s₂.status m = .linking := by
    obtain ⟨w, hw⟩ := hk.cyclic m hm rfl
    rw [hc, Option.map_some] at hw
    rw [status_of_cyclic? hw, ho]
  refine ⟨fun x hx => hk.has x (h.has x hx), fun x hx => ?_, fun x hx => ?_, fun x hx hr' => ?_,
    fun x hx => ?_⟩
  · obtain ⟨hx₁, hl⟩ := h.marked x hx
    rw [status, linkage, hk.kind x (hhas x hx₁) fun e => hx (e ▸ hu)]
    exact ⟨hx₁, hl⟩
  · have hx₁ := h.opened x hx
    rw [status, hk.kind x (hhas x (by rw [hx₁]; exact Status.noConfusion)) fun e => ?_, ← status,
      hx₁]
    rw [e, hu] at hx
    exact Status.noConfusion hx
  · rw [status, linkage, hk.kind x (h.has x hx) fun e => hr' (e ▸ hr)]
    exact h.untouched x hx hr'
  · have e : x ≠ m := by
      rintro rfl
      rw [hself] at hx
      exact hx
    by_cases hh : s₁.Has x
    · rw [status, hk.kind x hh e] at hx
      rw [linkage, hk.kind x hh e]
      exact h.linked x hx
    · rw [status, (hk.made x hh e).isUnlinked.status_eq] at hx
      exact hx.elim

/-- Modules that were unlinked when the part of the link started are linked. -/
theorem link (h : s.Tended reached made s₁) {cycle : List ModuleId}
    (hcycle : ∀ x ∈ cycle, s.status x = .unlinked ∧ s₁.status x ≠ .unlinked ∧
      made x (s₁.linkage x)) (hreached : ∀ x ∈ cycle, s.Has x → reached x) :
    s.Tended reached made (cycle.foldl (fun s x => s.setStatus x .linked) s₁) := by
  have hstatus := status_linked cycle s₁
  have hlinkage := linkage_linked cycle s₁
  have hgrow : ∀ x, s₁.Has x → (cycle.foldl (fun s x => s.setStatus x .linked) s₁).Has x :=
    fun x hx => (has_foldl_updateKind _ _).2 hx
  generalize cycle.foldl (fun s x => s.setStatus x .linked) s₁ = s' at *
  refine ⟨fun x hx => hgrow x (h.has x hx), fun x hx => ?_, fun x hx => ?_, fun x hx hr => ?_,
    fun x hx => ?_⟩
  · obtain ⟨hx₁, hl⟩ := h.marked x hx
    refine ⟨?_, (hlinkage x).trans hl⟩
    rcases hstatus x with e | ⟨-, e⟩
    · rwa [e]
    · rw [e]
      exact Status.noConfusion
  · rcases hstatus x with e | ⟨hxc, -⟩
    · rw [e, h.opened x hx]
    · rw [(hcycle x hxc).1] at hx
      exact Status.noConfusion hx
  · obtain ⟨hs, hl⟩ := h.untouched x hx hr
    rcases hstatus x with e | ⟨hxc, -⟩
    · exact ⟨e.trans hs, (hlinkage x).trans hl⟩
    · exact absurd (hreached x hxc hx) hr
  · rw [hlinkage]
    rcases hstatus x with e | ⟨hxc, -⟩
    · rw [e] at hx
      exact h.linked x hx
    · exact .inr (hcycle x hxc).2.2

end Tended

end Machine

/-- The terms on which a host links, starting from `start`. All machines on the way stand on the
same ground; the modules that the link gets to are reached; and what the host initializes is as it
is made. -/
structure LinkTerms (journal : σ → Journal) (start : Machine σ κ) (ground : Machine σ κ → Prop)
    (reached : ModuleId → Prop) (made : ModuleId → Linkage → Prop) (host : Host σ κ) : Prop where
  conduct : LinkConduct journal host
  resolve : ∀ {s m request r s'}, ground s →
    host.resolve (.module m) request s = some (r, s') → ground s'
  reaches : ∀ {s w m request n s'}, ground s → ground w → start.status m = .unlinked → reached m →
    request ∈ w.requested m → host.resolve (.module m) request s = some (.ok n, s') → reached n
  linkLeaf : ∀ {s m r s'}, ground s → (s.module m).kind = .leaf .unlinked →
    host.linkLeaf m s = some (r, s') →
    ground s' ∧ (r = .ok () → made m (ModuleKind.leaf .linked).linkage)
  initializes : ∀ {path s m r s'}, ground s → s.Has m → reached m → s.isCyclic m →
    initializeModule host path m s = some (r, s') →
    ground s' ∧ (r = .ok () → made m (s'.linkage m))
  update : ∀ {s m f}, ground s → (∀ k : ModuleKind, k.Relabels (f k)) → ground (s.updateKind m f)

def Cyclic.opened (visits : ℕ) (c : Cyclic) : Cyclic :=
  { c with status := .linking, visit := some visits, ancestor := some visits }

theorem openLinking_apply (m : ModuleId) (t : Traversal) (s : Machine σ κ) :
    openLinking m t s =
      some ((.ok (), ⟨m :: t.stack, t.visits + 1⟩), s.updateCyclic m (.opened t.visits)) := rfl

namespace LinkTerms

variable {journal : σ → Journal} {start s s' : Machine σ κ} {ground : Machine σ κ → Prop}
variable {reached : ModuleId → Prop} {made : ModuleId → Linkage → Prop} {host : Host σ κ}
variable {t t' : Traversal} {m x : ModuleId} {depth : Nat} {result : Except LinkError Unit}

/-- What a part of a visit leaves, whether it returns or throws. If it returns, the modules that it
has put on the stack were unlinked before and are as they are made. -/
structure Leaves (ground : Machine σ κ → Prop) (reached : ModuleId → Prop)
    (made : ModuleId → Linkage → Prop) (t : Traversal) (s : Machine σ κ)
    (result : Except LinkError Unit) (t' : Traversal) (s' : Machine σ κ) : Prop where
  ground : ground s'
  tended : s.Tended reached made s'
  stack : result = .ok () → ∃ added, t'.stack = added ++ t.stack ∧ ∀ x ∈ added,
    s.status x = .unlinked ∧ s'.status x ≠ .unlinked ∧ made x (s'.linkage x)

def Tends (ground : Machine σ κ → Prop) (reached : ModuleId → Prop)
    (made : ModuleId → Linkage → Prop) (v : LinkVisit σ κ Unit) (t : Traversal)
    (s : Machine σ κ) : Prop :=
  ∀ result t' s', v t s = some ((result, t'), s') →
    Leaves ground reached made t s result t' s'

theorem Leaves.of_tended (hg : ground s') (ht : s.Tended reached made s') :
    Leaves ground reached made t s result t s' :=
  ⟨hg, ht, fun _ => ⟨[], rfl, fun _ hx => nomatch hx⟩⟩

theorem Leaves.refl (hg : ground s) : Leaves ground reached made t s result t s :=
  .of_tended hg ((Machine.Tended.composes reached made).refl s)

/-- What a later part leaves, seen from the start of an earlier one. -/
theorem Leaves.after {t₁ : Traversal} {s₁ : Machine σ κ}
    (h : Leaves ground reached made t s (.ok ()) t₁ s₁)
    (h' : Leaves ground reached made t₁ s₁ result t' s') :
    Leaves ground reached made t s result t' s' := by
  refine ⟨h'.ground, (Machine.Tended.composes _ _).trans h.tended h'.tended, fun hr => ?_⟩
  obtain ⟨added, hadded, hmade⟩ := h.stack rfl
  obtain ⟨added', hadded', hmade'⟩ := h'.stack hr
  refine ⟨added' ++ added, by rw [hadded', hadded, List.append_assoc], fun x hx => ?_⟩
  rcases List.mem_append.1 hx with hx | hx
  · obtain ⟨hu, hx'⟩ := hmade' x hx
    exact ⟨by_contra fun hn => (h.tended.marked x hn).1 hu, hx'⟩
  · obtain ⟨hu, hn, hx'⟩ := hmade x hx
    obtain ⟨hn', hl⟩ := h'.tended.marked x hn
    exact ⟨hu, hn', by rwa [hl]⟩

/-- A part that throws leaves the same, whatever is on the stack. -/
theorem Leaves.throws {t₁ t₂ : Traversal} {e : LinkError}
    (h : Leaves ground reached made t s (.error e) t' s') :
    Leaves ground reached made t₁ s (.error e) t₂ s' :=
  ⟨h.ground, h.tended, fun he => nomatch he⟩

theorem Tends.bind {v : LinkVisit σ κ Unit} {f : Unit → LinkVisit σ κ Unit}
    (hv : Tends ground reached made v t s)
    (hf : ∀ t₁ s₁, ground s₁ → s.Tended reached made s₁ →
      Tends ground reached made (f ()) t₁ s₁) :
    Tends ground reached made (v >>= f) t s := by
  intro result t' s' hrun
  obtain ⟨_, t₁, s₁, h₁, h₂⟩ | ⟨e, h₁, rfl⟩ := visit_bind.1 hrun
  · have hl := hv _ _ _ h₁
    exact hl.after (hf t₁ s₁ hl.ground hl.tended _ _ _ h₂)
  · exact hv _ _ _ h₁

section Visits

variable (h : LinkTerms journal start ground reached made host)
include h

theorem reachOpen (hg : ground s) (m n : ModuleId) :
    Leaves ground reached made t s result t (reachOpen m n s) := by
  rw [ModuleGraph.reachOpen]
  split
  · split
    · rename_i c hc hl
      refine .of_tended (h.update hg (ModuleKind.relabels_updateCyclic (f := (·.reach c.ancestor))
        (fun _ => rfl) fun _ => rfl)) ?_
      exact .of_status (fun x hx => by simpa using hx)
        (fun x => Machine.linkage_updateCyclic (f := (·.reach c.ancestor)) (fun _ => rfl) s m x)
        fun x => Machine.status_updateCyclic fun _ => rfl
    · exact .refl hg
  · exact .refl hg

theorem request_tends
    (ih : ∀ names n t s, ground s → start.Tended reached made s → s.Has n → reached n →
      Tends ground reached made (visitLinking host depth names n) t s)
    {w : Machine σ κ} {request : String} (hg : ground s) (hs : start.Tended reached made s)
    (hu : start.status m = .unlinked) (hr : reached m) (hw : ground w)
    (hreq : request ∈ w.requested m) (names : List String) :
    Tends ground reached made (Machine.requestLinking host depth names m request) t s := by
  intro result t' s' hrun
  obtain ⟨n, t₁, s₁, hask, h₂⟩ | ⟨e, hask, rfl⟩ := visit_bind.1 hrun
  · obtain ⟨rfl, hresolve⟩ := LinkVisit.ofLinking_eq_some.1 hask
    obtain ⟨x, h₁, hx⟩ := Linking.ofAct_eq_some.1 hresolve
    cases x with
    | error e => cases hx
    | ok n' =>
      cases hx
      have hg₁ := h.resolve hg h₁
      have hasked : Leaves ground reached made t₁ s (.ok ()) t₁ s₁ :=
        .of_tended hg₁ (.of_keeps (h.conduct.resolve _ _ _ _ _ h₁))
      have hn := h.reaches hg hw hu hr hreq h₁
      have hs₁ := (Machine.Tended.composes _ _).trans hs hasked.tended
      have hvisit := ih (names ++ [request]) n t₁ s₁ hg₁ hs₁ (h.conduct.answers h₁).2 hn
      refine hasked.after (hvisit.bind (fun t₂ s₂ hg₂ _ => ?_) _ _ _ h₂)
      intro r t₃ s₃ hrun
      cases hrun
      exact h.reachOpen hg₂ m n
  · obtain ⟨rfl, hresolve⟩ := LinkVisit.ofLinking_eq_some.1 hask
    obtain ⟨x, h₁, -⟩ := Linking.ofAct_eq_some.1 hresolve
    exact .of_tended (h.resolve hg h₁) (.of_keeps (h.conduct.resolve _ _ _ _ _ h₁))

theorem requests_tend
    (ih : ∀ names n t s, ground s → start.Tended reached made s → s.Has n → reached n →
      Tends ground reached made (visitLinking host depth names n) t s)
    {w : Machine σ κ} (hu : start.status m = .unlinked) (hr : reached m) (hw : ground w)
    (names requests : List String) :
    ∀ t s, ground s → start.Tended reached made s →
      (∀ request ∈ requests, request ∈ w.requested m) →
      Tends ground reached made (requests.forM (Machine.requestLinking host depth names m)) t s :=
    by
  induction requests with
  | nil =>
    intro t s hg _ _ result t' s' hrun
    cases hrun
    exact .refl hg
  | cons request rest ihr =>
    intro t s hg hs hreq
    obtain ⟨hreq, hrest⟩ := List.forall_mem_cons.1 hreq
    refine (h.request_tends ih hg hs hu hr hw hreq names).bind fun t₁ s₁ hg₁ hs₁ => ?_
    exact ihr t₁ s₁ hg₁ ((Machine.Tended.composes _ _).trans hs hs₁) hrest

theorem leaf_tends (hg : ground s) (hm : s.Has m) (hr : reached m) (hleaf : s.cyclic? m = none)
    (names : List String) :
    Tends ground reached made (LinkVisit.ofLinking (ModuleGraph.linkLeaf host names m)) t s := by
  intro result t' s' hvisit
  obtain ⟨rfl, hrun⟩ := LinkVisit.ofLinking_eq_some.1 hvisit
  rw [ModuleGraph.linkLeaf, Linking.view_bind] at hrun
  cases hk : (s.module m).kind with
  | source r env c => simp [Machine.cyclic?_eq, hk, ModuleKind.cyclic?] at hleaf
  | foreign i c => simp [Machine.cyclic?_eq, hk, ModuleKind.cyclic?] at hleaf
  | leaf state =>
    rw [hk] at hrun
    cases state with
    | linked =>
      cases hrun
      exact .refl hg
    | evaluated p =>
      cases hrun
      exact .refl hg
    | unlinked =>
      obtain ⟨_, s₁, hhook, h₂⟩ | ⟨e, hhook, rfl⟩ := throwing_bind.1 hrun
      · obtain ⟨x, h₁, hx⟩ := Linking.ofAct_eq_some.1 hhook
        cases x with
        | error e => cases hx
        | ok u =>
          obtain ⟨hg₁, hmade⟩ := h.linkLeaf hg hk h₁
          have hkeeps := h.conduct.linkLeaf _ _ _ _ h₁
          have hk₁ : (s₁.module m).kind = .leaf .unlinked := (hkeeps.kind m hm id).trans hk
          cases h₂
          have hleaves : Leaves ground reached made t' s (.ok ()) t' s₁ :=
            .of_tended hg₁ (.of_keeps hkeeps)
          refine hleaves.after (.of_tended (h.update hg₁ fun k => ?_) ?_)
          · cases k <;> exact ⟨⟨rfl, rfl, fun _ e => by cases e⟩, rfl, .inl rfl⟩
          · exact .leaf (hkeeps.has m hm) hk₁ hr (hmade rfl) rfl
      · obtain ⟨x, h₁, -⟩ := Linking.ofAct_eq_some.1 hhook
        exact .of_tended (h.linkLeaf hg hk h₁).1 (.of_keeps (h.conduct.linkLeaf _ _ _ _ h₁))

/-- A module whose requests were visited is initialized, and its cycle is closed if it is the
root. -/
theorem finish_tends {t₂ : Traversal} {s₂ : Machine σ κ} {names : List String}
    {added : List ModuleId}
    (hg : ground s₂) (hs : s.Tended reached made s₂) (hu : s.status m = .unlinked)
    (hr : reached m) (hm : s.Has m) {c : Cyclic} (hc : s₂.cyclic? m = some c)
    (ho : c.status = .linking) (hstack : t₂.stack = added ++ m :: t.stack)
    (hadded : ∀ x ∈ added, s.status x = .unlinked ∧ s₂.status x ≠ .unlinked ∧
      made x (s₂.linkage x))
    (hrun : (do
      LinkVisit.ofLinking (initializeModule host names m)
      closeLinking m : LinkVisit σ κ Unit) t₂ s₂ = some ((result, t'), s')) :
    Leaves ground reached made t s result t' s' := by
  have hh := hs.has m hm
  have hcyc : s₂.isCyclic m := by rw [Machine.isCyclic, hc]; rfl
  obtain ⟨_, t₃, s₃, hinit, h₂⟩ | ⟨e, hinit, rfl⟩ := visit_bind.1 hrun
  · obtain ⟨rfl, h₁⟩ := LinkVisit.ofLinking_eq_some.1 hinit
    obtain ⟨hg₃, hmade⟩ := h.initializes hg hh hr hcyc h₁
    have hkeeps := h.conduct.initializeModule _ _ _ _ _ h₁
    have hs₃ := hs.initialized hu hr hc ho hkeeps
    have hself : s₃.status m ≠ .unlinked := by
      obtain ⟨w, hw⟩ := hkeeps.cyclic m hh rfl
      rw [hc, Option.map_some] at hw
      rw [Machine.status_of_cyclic? hw, ho]
      exact Status.noConfusion
    -- A module above `m` on the stack is not changed any more.
    have hadded₃ : ∀ x ∈ added, s.status x = .unlinked ∧ s₃.status x ≠ .unlinked ∧
        made x (s₃.linkage x) := by
      intro x hx
      obtain ⟨hux, hx₂, hmx⟩ := hadded x hx
      by_cases e : x = m
      · subst e
        exact ⟨hu, hself, hmade rfl⟩
      · have hk := hkeeps.kind x (Machine.has_of_status_ne hx₂) e
        exact ⟨hux, by rwa [Machine.status, hk], by rwa [Machine.linkage, hk]⟩
    rw [ExportGraph.closeLinking_apply] at h₂
    split at h₂
    · obtain ⟨stack, visits⟩ := t₃
      obtain rfl : stack = _ := hstack
      obtain ⟨rest, hrest, hprest, hpcycle⟩ :=
        ExportGraph.close_split ⟨hu, hself, hmade rfl⟩ t.stack visits added hadded₃
      cases h₂
      refine ⟨?_, hs₃.link hpcycle fun x hx hhx => ?_, fun _ => ⟨rest, hrest, fun x hx => ?_⟩⟩
      · refine List.foldlRecOn (motive := ground) _ _ hg₃ fun s hs x _ => ?_
        exact h.update hs (ModuleKind.relabels_updateCyclic
          (f := fun c => { c with status := .linked }) (fun _ => rfl) fun _ => rfl)
      · by_contra hn
        obtain ⟨hux, hx₃, -⟩ := hpcycle x hx
        exact hx₃ ((hs₃.untouched x hhx hn).1.trans hux)
      · obtain ⟨hux, hx₃, hmx⟩ := hprest x hx
        rw [Machine.linkage_linked]
        refine ⟨hux, ?_, hmx⟩
        rcases Machine.status_linked ((⟨added ++ m :: t.stack, visits⟩ : Traversal).close m).1 s₃ x
          with e | ⟨-, e⟩
        · rwa [e]
        · rw [e]
          exact Status.noConfusion
    · cases h₂
      refine ⟨hg₃, hs₃, fun _ => ⟨added ++ [m], ?_, fun x hx => ?_⟩⟩
      · rw [hstack, List.append_assoc, List.singleton_append]
      · rcases List.mem_append.1 hx with hx | hx
        · exact hadded₃ x hx
        · rw [List.mem_singleton.1 hx]
          exact ⟨hu, hself, hmade rfl⟩
  · obtain ⟨rfl, h₁⟩ := LinkVisit.ofLinking_eq_some.1 hinit
    refine ⟨(h.initializes hg hh hr hcyc h₁).1, ?_, fun he => by cases he⟩
    exact hs.initialized hu hr hc ho (h.conduct.initializeModule _ _ _ _ _ h₁)

theorem opened (hg : ground s) (hm : s.Has m) (hr : reached m) {c : Cyclic}
    (hc : s.cyclic? m = some c) (hu : c.status = .unlinked) (visits : ℕ) :
    ground (s.updateCyclic m (.opened visits)) ∧
      s.Tended reached made (s.updateCyclic m (.opened visits)) ∧
      (s.updateCyclic m (.opened visits)).cyclic? m = some (c.opened visits) := by
  have hmarked : (s.updateCyclic m (.opened visits)).cyclic? m = some (c.opened visits) := by
    rw [Machine.cyclic?_updateCyclic _ hm, if_pos rfl, hc, Option.map_some]
  refine ⟨h.update hg (ModuleKind.relabels_updateCyclic (fun _ => rfl) fun _ => rfl), ?_, hmarked⟩
  refine .of_unlinked (fun x hx => by simpa using hx) ((Machine.status_of_cyclic? hc).trans hu) hr
    (fun hl => ?_) fun x hx => ?_
  · rw [Machine.status_of_cyclic? hmarked] at hl
    exact hl.elim
  · rw [Machine.kind_updateCyclic _ hm, if_neg hx]

theorem open_tends
    (ih : ∀ names n t s, ground s → start.Tended reached made s → s.Has n → reached n →
      Tends ground reached made (visitLinking host depth names n) t s)
    (hg : ground s) (hs : start.Tended reached made s) (hm : s.Has m) (hr : reached m) {c : Cyclic}
    (hc : s.cyclic? m = some c) (hu : c.status = .unlinked) (names : List String) :
    Tends ground reached made (do
      openLinking m
      c.requested.forM (Machine.requestLinking host depth names m)
      LinkVisit.ofLinking (initializeModule host names m)
      closeLinking m) t s := by
  intro result t' s' hrun
  have hunlinked : s.status m = .unlinked := (Machine.status_of_cyclic? hc).trans hu
  have hstart : start.status m = .unlinked :=
    by_contra fun hn => (hs.marked m hn).1 hunlinked
  obtain ⟨hg₁, hs₁, hmarked⟩ := h.opened hg hm hr hc hu t.visits
  obtain ⟨_, t₁, s₁, h₁, h₂⟩ | ⟨e, h₁, -⟩ := visit_bind.1 hrun
  · cases h₁
    have hcompose {s₁ s₂ s₃ : Machine σ κ} (h : s₁.Tended reached made s₂)
        (h' : s₂.Tended reached made s₃) := (Machine.Tended.composes reached made).trans h h'
    have hrequests := h.requests_tend ih hstart hr hg names c.requested ⟨m :: t.stack, t.visits + 1⟩
      _ hg₁ (hcompose hs hs₁) fun request hreq => by
        rwa [Machine.requested_of_cyclic? hc]
    obtain ⟨_, t₂, s₂, h₃, h₄⟩ | ⟨e, h₃, rfl⟩ := visit_bind.1 h₂
    · have hleaves := hrequests _ _ _ h₃
      obtain ⟨added, hadded, hmade⟩ := hleaves.stack rfl
      have hopen := hleaves.tended.opened m (Machine.status_of_cyclic? hmarked)
      obtain ⟨c₂, hc₂, hc₂'⟩ := Machine.cyclic?_of_linking hopen
      refine h.finish_tends hleaves.ground (hcompose hs₁ hleaves.tended) hunlinked hr hm hc₂ hc₂'
        hadded (fun x hx => ?_) h₄
      obtain ⟨hux, hx'⟩ := hmade x hx
      exact ⟨by_contra fun hn => (hs₁.marked x hn).1 hux, hx'⟩
    · have hleaves := hrequests _ _ _ h₃
      exact ⟨hleaves.ground, hcompose hs₁ hleaves.tended, fun he => nomatch he⟩
  · cases h₁

theorem visitLinking_tends (depth : Nat) :
    ∀ names m t s, ground s → start.Tended reached made s → s.Has m → reached m →
      Tends ground reached made (visitLinking host depth names m) t s := by
  induction depth with
  | zero =>
    intro names m t s _ _ _ _ result t' s' hrun
    obtain ⟨-, a, -, hrun⟩ := LinkVisit.ofRun_eq_some.1 hrun
    cases hrun
  | succ depth ih =>
    intro names m t s hg hs hm hr result t' s' hrun
    rw [visitLinking, LinkVisit.view_bind] at hrun
    cases hc : s.cyclic? m with
    | none =>
      rw [hc] at hrun
      exact h.leaf_tends hg hm hr hc names _ _ _ hrun
    | some c =>
      simp only [hc] at hrun
      by_cases hu : c.status = .unlinked
      · rw [if_pos hu] at hrun
        exact h.open_tends ih hg hs hm hr hc hu names _ _ _ hrun
      · rw [if_neg hu] at hrun
        cases hrun
        exact .refl hg

/-! ## The whole link -/

/-- What a link leaves of each module, whether it succeeds or fails. -/
theorem link (hg : ground start) (hrest : start.AtRest journal) (hm : start.Has m) (hr : reached m)
    (hrun : host.link m start = some (result, s')) :
    ground s' ∧
    (∀ x, start.Has x → ¬reached x →
      s'.status x = start.status x ∧ s'.linkage x = start.linkage x) ∧
    ∀ x, (s'.status x).IsLinked → (start.status x).IsLinked ∨ made x (s'.linkage x) := by
  obtain ⟨⟨r, t⟩, s₁, hvisit, hend⟩ := Run.bind_eq_some.1 hrun
  obtain ⟨hg₁, hs₁, -⟩ := h.visitLinking_tends host.depth [] m ⟨[], 0⟩ start hg
    ((Machine.Tended.composes _ _).refl start) hm hr _ _ _ hvisit
  cases r with
  | ok u =>
    cases hend
    exact ⟨hg₁, hs₁.untouched, hs₁.linked⟩
  | error e =>
    cases hend
    have hin : Machine.InLink journal start s₁ t.stack :=
      Machine.visitLinking_ends (Machine.linksThrough_id h.conduct) host.depth [] m [] start _ _ _ _
        (.first hrest.inLink) hm hvisit
    have hkind := fun x => Machine.kind_foldl_updateKind (n := x) Machine.takeBack hin.nodup
      fun y hy => hin.has hy
    rw [← Machine.foldl_unlink_eq] at hkind
    refine ⟨?_, fun x hx hr => ?_, fun x hx => ?_⟩
    · refine List.foldlRecOn (motive := ground) _ _ hg₁ fun s hs x _ => ?_
      rw [Machine.unlink_eq_updateKind]
      exact h.update hs ModuleKind.relabels_takeBack
    · obtain ⟨hs, hl⟩ := hs₁.untouched x hx hr
      have hout : x ∉ t.stack := fun hxs =>
        hrest.not_linking x (hs.symm.trans ((hin.open_iff x).2 hxs))
      rw [Machine.status, Machine.linkage, hkind, if_neg hout]
      exact ⟨hs, hl⟩
    · have hout : x ∉ t.stack := fun hxs => by
        rw [Machine.status, hkind, if_pos hxs] at hx
        obtain ⟨c, hc, -⟩ := hin.marked x hxs
        rw [Machine.cyclic?_eq] at hc
        cases hk : (s₁.module x).kind with
        | leaf state => rw [hk] at hc; cases hc
        | source r env c => rw [hk] at hx; exact hx
        | foreign i c => rw [hk] at hx; exact hx
      rw [Machine.status, hkind, if_neg hout] at hx
      rw [Machine.linkage, hkind, if_neg hout]
      exact hs₁.linked x hx

end Visits

end LinkTerms

end ModuleGraph
