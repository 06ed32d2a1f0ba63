import ModuleGraph.Proofs.Runs.Rehearsal

/-! # How far a failure spreads

When the body of a module that waits has thrown, the module fails, and so does every module that
waits for it, through others too, unless it is evaluated already. Their promises are rejected with
the same value, unless the host has decided them; no other module and no other promise is touched.
Going on stops at evaluated modules: one that waits for a failed module has failed as well, and one
that is complete waits only for complete modules. -/

namespace ModuleGraph

open Relation

def Module.failed (x : Module) (e : Value) : Module :=
  { x with kind := x.kind.updateCyclic fun c => { c.fail e with order := .done } }

def Settlement.reason? : Settlement → Option Value
  | .fulfilled _ => none
  | .rejected e => some e

/-! ## Modules behind one that waits -/

namespace Graph.Sound

variable {g : Graph} {d x y : ModuleId}

/-- Nothing is complete that waits, through others too, for a module that waits. -/
theorem incomplete_of_awaited (h : g.Sound) (hd : (g.fields d).status = .evaluatingAsync)
    (hx : ReflTransGen (fun a b => b ∈ (g.fields a).parents) d x) : ¬g.Complete x := by
  induction hx with
  | refl =>
    intro hc
    rw [hc.1] at hd
    cases hd
  | @tail b c _ hstep ih =>
    intro hc
    have hstarts := ((h.shaped c).complete hc.1 hc.2).2.2.1
    exact ih ((h.awaits b c hstep).started (by rw [hstarts]; exact one_ne_zero))

/-- Whoever waits for a module that has failed is evaluated. -/
theorem evaluated_of_awaited (h : g.Sound) (hdoom : g.doom = []) (hy : y ∈ (g.fields x).parents)
    (hx : (g.fields x).status = .evaluated) (hc : ¬g.Complete x) :
    (g.fields y).status = .evaluated := by
  have hf : g.Failed x := fun he => hc ⟨hx, he⟩
  refine (h.shaped y).evaluated_of_failed (((h.awaits x y hy).failed hf).resolve_right ?_)
  rw [hdoom]
  exact List.not_mem_nil

end Graph.Sound

namespace Machine

variable {σ κ : Type} {journal : σ → Journal} {owner : κ → ModuleId} {reserved : Set PromiseId}
variable {hosts : Set (Host σ κ)} {host : Host σ κ} {s s' s'' s₁ s₂ : Machine σ κ}
variable {o : Focus} {d m x y : ModuleId} {p : PromiseId} {c : Capability} {e : Value}
variable {xs ys rest ready released debt : List ModuleId}

def AwaitedBy (s : Machine σ κ) (x y : ModuleId) : Prop := y ∈ (s.cyclic x).parents

/-! ## The recursion without a bound -/

def tellFailure (s : Machine σ κ) (host : Host σ κ) (c? : Option Capability) (e : Value) :
    Machine σ κ :=
  match c? with
  | some c => s.reject host.track c e
  | none => s

/-- Modules fail one after the other. Each one that is not evaluated fails, then those that wait for
it do, and then its promise is rejected. How deep this goes is not bounded. -/
inductive Spreads (host : Host σ κ) (e : Value) :
    Machine σ κ → List ModuleId → Machine σ κ → Prop
  | nil (s : Machine σ κ) : Spreads host e s [] s
  | skip {s s' : Machine σ κ} {m : ModuleId} {rest : List ModuleId} :
      (s.cyclic m).status = .evaluated → Spreads host e s rest s' →
        Spreads host e s (m :: rest) s'
  | fail {s s₁ s' : Machine σ κ} {m : ModuleId} {rest : List ModuleId} :
      (s.cyclic m).status ≠ .evaluated →
      Spreads host e (s.updateModule m (·.failed e)) (s.cyclic m).parents s₁ →
      Spreads host e (s₁.tellFailure host (s.cyclic m).capability e) rest s' →
        Spreads host e s (m :: rest) s'

/-- The recursion has one outcome. -/
theorem Spreads.unique (h : Spreads host e s xs s') (h' : Spreads host e s xs s'') : s'' = s' := by
  induction h generalizing s'' with
  | nil =>
    cases h'
    rfl
  | skip hm _ ih =>
    cases h' with
    | skip _ h' => exact ih h'
    | fail hm' => exact (hm' hm).elim
  | fail hm _ _ ih ih' =>
    cases h' with
    | skip hm' => exact (hm hm').elim
    | fail _ h₁ h₂ =>
      obtain rfl := ih h₁
      exact ih' h₂

/-! ## What it changes -/

def Falls (s s' : Machine σ κ) (x : ModuleId) : Prop :=
  (s.cyclic x).status ≠ .evaluated ∧ (s'.cyclic x).status = .evaluated

def Tied (s : Machine σ κ) : Prop := ∀ x y, s.AwaitedBy x y → ¬(s.cyclic y).status.IsIdle

/-- Each promise of an evaluation answers for one module, with a capability that does not settle it
once it is decided. -/
structure Addressed (s : Machine σ κ) : Prop where
  made : ∀ m c, (s.cyclic m).capability = some c → s.Made c.promise
  strict : ∀ m c, (s.cyclic m).capability = some c → c.mustBeUnresolved = true
  distinct : ∀ m n c d, (s.cyclic m).capability = some c → (s.cyclic n).capability = some d →
    c.promise = d.promise → m = n

def Bypasses (s s' : Machine σ κ) (p : PromiseId) : Prop :=
  ∀ x c, s.Falls s' x → (s.cyclic x).capability = some c → c.promise ≠ p

structure Spread (e : Value) (xs : List ModuleId) (s s' : Machine σ κ) : Prop where
  size : s'.modules.size = s.modules.size
  kept : ∀ x, ¬s.Falls s' x → s'.module x = s.module x
  failed : ∀ x, s.Falls s' x → s'.module x = (s.module x).failed e
  all : ∀ x ∈ xs, (s'.cyclic x).status = .evaluated
  onward : ∀ x y, s.Falls s' x → s.AwaitedBy x y → (s'.cyclic y).status = .evaluated
  back : ∀ x, s.Falls s' x → ∃ y ∈ xs, ReflTransGen s.AwaitedBy y x
  promises : s'.promises.size = s.promises.size
  spared : ∀ p, s.Bypasses s' p → s'.promise p = s.promise p
  settled : ∀ p y, (s.promise p).settlement? = some y → (s'.promise p).settlement? = some y
  decided : s.Addressed → ∀ p, ¬s.Undecided p → s'.promise p = s.promise p
  rejected : s.Addressed → ∀ x c, s.Falls s' x → (s.cyclic x).capability = some c →
    s.Undecided c.promise → (s'.promise c.promise).settlement? = some (.rejected e)

theorem not_falls_refl : ¬s.Falls s x := fun h => h.1 h.2

theorem Falls.cases (h : s.Falls s'' x) (s' : Machine σ κ) : s.Falls s' x ∨ s'.Falls s'' x := by
  by_cases hs : (s'.cyclic x).status = .evaluated
  · exact .inl ⟨h.1, hs⟩
  · exact .inr ⟨hs, h.2⟩

namespace Spread

theorem evaluated (h : Spread e xs s s') (hx : (s.cyclic x).status = .evaluated) :
    (s'.cyclic x).status = .evaluated := by
  rw [cyclic_of_module (h.kept x fun hf => hf.1 hx), hx]

theorem field {β : Type} (h : Spread e xs s s') (φ : Cyclic → β)
    (hφ : ∀ c, φ { c.fail e with order := .done } = φ c) (x : ModuleId) :
    φ (s'.cyclic x) = φ (s.cyclic x) := by
  by_cases hx : s.Falls s' x
  · rw [cyclic, cyclic, cyclic?, cyclic?, h.failed x hx, Module.failed,
      ModuleKind.cyclic?_updateCyclic]
    cases (s.module x).kind.cyclic? with
    | none => rfl
    | some c => exact hφ c
  · rw [cyclic_of_module (h.kept x hx)]

theorem awaitedBy (h : Spread e xs s s') : s'.AwaitedBy = s.AwaitedBy := by
  funext x y
  rw [AwaitedBy, AwaitedBy, h.field (·.parents) fun _ => rfl]

theorem capability (h : Spread e xs s s') (x : ModuleId) :
    (s'.cyclic x).capability = (s.cyclic x).capability := h.field (·.capability) (fun _ => rfl) x

theorem awake (h : Spread e xs s s') (hx : ¬(s.cyclic x).status.IsIdle) :
    ¬(s'.cyclic x).status.IsIdle := by
  by_cases hf : s.Falls s' x
  · rw [hf.2]
    exact id
  · rwa [cyclic_of_module (h.kept x hf)]

theorem tied (h : Spread e xs s s') (hs : s.Tied) : s'.Tied := fun x y hy =>
  h.awake (hs x y (by rwa [h.awaitedBy] at hy))

theorem addressed (h : Spread e xs s s') (hs : s.Addressed) : s'.Addressed := by
  refine ⟨fun m c hm => ?_, fun m c hm => ?_, fun m n c d hm hn => ?_⟩
  · rw [h.capability] at hm
    rw [Made, h.promises]
    exact hs.made m c hm
  · rw [h.capability] at hm
    exact hs.strict m c hm
  · rw [h.capability] at hm hn
    exact hs.distinct m n c d hm hn

/-- The promise of a module that has not fallen stays undecided. -/
theorem undecided (h : Spread e xs s s') (hs : s.Addressed) (hx : ¬s.Falls s' x)
    (hc : (s.cyclic x).capability = some c) (hp : s.Undecided c.promise) :
    s'.Undecided c.promise := by
  have hspared : s.Bypasses s' c.promise := fun y d hy hd heq => by
    obtain rfl := hs.distinct y x d c hd hc heq
    exact hx hy
  rwa [Undecided, h.spared _ hspared]

theorem refl (h : ∀ x ∈ xs, (s.cyclic x).status = .evaluated) : Spread e xs s s where
  size := rfl
  kept _ _ := rfl
  failed _ hx := (not_falls_refl hx).elim
  all := h
  onward _ _ hx := (not_falls_refl hx).elim
  back _ hx := (not_falls_refl hx).elim
  promises := rfl
  spared _ _ := rfl
  settled _ _ hp := hp
  decided _ _ _ := rfl
  rejected _ _ _ hx := (not_falls_refl hx).elim

theorem append (h : Spread e xs s s') (h' : Spread e ys s' s'') : Spread e (xs ++ ys) s s'' where
  size := h'.size.trans h.size
  kept x hx := by
    have hx' : ¬s.Falls s' x := fun hf => hx ⟨hf.1, h'.evaluated hf.2⟩
    have hx'' : ¬s'.Falls s'' x := fun hf => hx ⟨fun hs => hf.1 (h.evaluated hs), hf.2⟩
    rw [h'.kept x hx'', h.kept x hx']
  failed x hx := by
    obtain hf | hf := hx.cases s'
    · rw [h'.kept x fun hf' => hf'.1 hf.2, h.failed x hf]
    · rw [h'.failed x hf, h.kept x fun hf' => hf.1 hf'.2]
  all x hx := (List.mem_append.1 hx).elim (fun hx => h'.evaluated (h.all x hx)) (h'.all x)
  onward x y hx hy := by
    obtain hf | hf := hx.cases s'
    · exact h'.evaluated (h.onward x y hf hy)
    · exact h'.onward x y hf (by rwa [h.awaitedBy])
  back x hx := by
    obtain hf | hf := hx.cases s'
    · exact (h.back x hf).imp fun y hy => ⟨List.mem_append_left _ hy.1, hy.2⟩
    · refine (h'.back x hf).imp fun y hy => ⟨List.mem_append_right _ hy.1, ?_⟩
      rw [← h.awaitedBy]
      exact hy.2
  promises := h'.promises.trans h.promises
  spared p hp := by
    rw [h'.spared p, h.spared p]
    · exact fun x c hf => hp x c ⟨hf.1, h'.evaluated hf.2⟩
    · intro x c hf hc
      rw [h.capability] at hc
      exact hp x c ⟨fun hs => hf.1 (h.evaluated hs), hf.2⟩ hc
  settled p y hp := h'.settled p y (h.settled p y hp)
  decided hs p hp := by
    have hp' := h.decided hs p hp
    rw [h'.decided (h.addressed hs) p (by rwa [Undecided, hp']), hp']
  rejected hs x c hx hc hp := by
    obtain hf | hf := hx.cases s'
    · exact h'.settled _ _ (h.rejected hs x c hf hc hp)
    · have hp' := h.undecided hs (fun hf' => hf.1 hf'.2) hc hp
      exact h'.rejected (h.addressed hs) x c hf (by rwa [h.capability]) hp'

end Spread

section Fail

variable (hm : ¬(s.cyclic m).status.IsIdle) (e : Value)
include hm

theorem module_fail (x : ModuleId) : (s.updateModule m (·.failed e)).module x =
    if x = m then (s.module x).failed e else s.module x :=
  module_updateModule s m x _ (has_of_awake hm)

theorem cyclic_fail : (s.updateModule m (·.failed e)).cyclic =
    Function.update s.cyclic m { (s.cyclic m).fail e with order := .done } :=
  fields_updateCyclic (has_of_awake hm) (isCyclic_of_awake hm) _

theorem field_fail {β : Type} (φ : Cyclic → β)
    (hφ : ∀ c, φ { c.fail e with order := .done } = φ c) (x : ModuleId) :
    φ ((s.updateModule m (·.failed e)).cyclic x) = φ (s.cyclic x) := by
  rw [cyclic_fail hm]
  by_cases ex : x = m
  · rw [ex, Function.update_self, hφ]
  · rw [Function.update_of_ne ex]

theorem evaluated_fail : ((s.updateModule m (·.failed e)).cyclic m).status = .evaluated := by
  rw [cyclic_fail hm, Function.update_self]
  rfl

theorem awaitedBy_fail : (s.updateModule m (·.failed e)).AwaitedBy = s.AwaitedBy := by
  funext x y
  rw [AwaitedBy, AwaitedBy, field_fail hm e (·.parents) fun _ => rfl]

theorem tied_fail (hs : s.Tied) : (s.updateModule m (·.failed e)).Tied := by
  intro x y hy
  rw [awaitedBy_fail hm] at hy
  rw [cyclic_fail hm]
  by_cases ey : y = m
  · rw [ey, Function.update_self]
    exact id
  · rw [Function.update_of_ne ey]
    exact hs x y hy

theorem addressed_fail (hs : s.Addressed) : (s.updateModule m (·.failed e)).Addressed := by
  have hcapability := field_fail hm e (·.capability) fun _ => rfl
  refine ⟨fun x c hx => ?_, fun x c hx => ?_, fun x y c d hx hy => ?_⟩
  · rw [hcapability] at hx
    exact hs.made x c hx
  · rw [hcapability] at hx
    exact hs.strict x c hx
  · rw [hcapability] at hx hy
    exact hs.distinct x y c d hx hy

end Fail

/-! ## Telling that a module has failed -/

theorem promise_reject (track : Tracker σ) (s : Machine σ κ) (c : Capability) (e : Value)
    (hp : c.promise ≠ p) : (s.reject track c e).promise p = s.promise p := by
  rw [reject]
  split
  · rfl
  rw [rejectPending]
  split
  · dsimp only
    split <;> exact promise_setPromise_of_ne s _ hp
  · rfl
  · rfl

structure Told (c? : Option Capability) (e : Value) (s s' : Machine σ κ) : Prop where
  modules : s'.modules = s.modules
  size : s'.promises.size = s.promises.size
  settled : ∀ p y, (s.promise p).settlement? = some y → (s'.promise p).settlement? = some y
  other : ∀ p, (∀ c, c? = some c → c.promise ≠ p) → s'.promise p = s.promise p
  decided : ∀ c, c? = some c → c.mustBeUnresolved = true → ¬s.Undecided c.promise →
    s'.promise c.promise = s.promise c.promise
  rejected : ∀ c, c? = some c → s.Made c.promise → s.Undecided c.promise →
    (s'.promise c.promise).settlement? = some (.rejected e)

theorem Told.module {c? : Option Capability} (h : Told c? e s s') (x : ModuleId) :
    s'.module x = s.module x := by
  rw [Machine.module, h.modules, ← Machine.module]

theorem Told.cyclic {c? : Option Capability} (h : Told c? e s s') (x : ModuleId) :
    s'.cyclic x = s.cyclic x :=
  cyclic_of_module (h.module x)

theorem told_tellFailure (s : Machine σ κ) (host : Host σ κ) (c? : Option Capability) (e : Value) :
    Told c? e s (s.tellFailure host c? e) := by
  cases c? with
  | none =>
    exact ⟨rfl, rfl, fun _ _ hp => hp, fun _ _ => rfl, fun _ _ _ _ => rfl, fun _ hc => nomatch hc⟩
  | some c =>
    -- What the journal notes does not matter here.
    set journal : σ → Journal := fun _ => [] with hj
    have ht : ∀ p e h, journal (host.track p e h) = journal h := fun _ _ _ => rfl
    have hs : s.Settles journal (s.reject host.track c e) c.promise := reject_settles s ht c e
    refine ⟨hs.beside.modules, ?_, fun p y hp => hs.settlement? hp,
      fun p hp => promise_reject _ s c e (hp c rfl), fun d hd hstrict hu => ?_,
      fun d hd hmade hu => ?_⟩
    · obtain hu | ⟨_, he⟩ | ⟨_, hf⟩ := hs
      · exact hu.size
      · exact he.size
      · exact hf.size
    · obtain rfl := Option.some.inj hd
      rw [tellFailure, reject, if_pos (isSpent_of_decided hstrict hu)]
    · obtain rfl := Option.some.inj hd
      have hended := reject_ended s ht c (e := e) (not_isSpent_of_undecided hu)
      rw [← PromiseState.phase_snd]
      exact congrArg Prod.snd (hended.settled hmade)

section Fail

variable (hi : ¬(s.cyclic m).status.IsIdle) (hm : (s.cyclic m).status ≠ .evaluated)
variable (h : Spread e (s.cyclic m).parents (s.updateModule m (·.failed e)) s₁)
variable (ht : Told (s.cyclic m).capability e s₁ s₂)

include hi in
/-- Those that fall with a failed module are other ones. -/
theorem ne_of_falls_fail (hx : (s.updateModule m (·.failed e)).Falls s' x) : x ≠ m := by
  rintro rfl
  exact hx.1 (evaluated_fail hi e)

include hi hm h ht

theorem falls_self : s.Falls s₂ m :=
  ⟨hm, by rw [ht.cyclic, h.evaluated (evaluated_fail hi e)]⟩

omit hm h in
/-- Whatever else falls, falls with those that wait for the failed module. -/
theorem falls_iff_of_ne (hx : x ≠ m) :
    s.Falls s₂ x ↔ (s.updateModule m (·.failed e)).Falls s₁ x := by
  rw [Falls, Falls, ht.cyclic, cyclic_fail hi, Function.update_of_ne hx]

omit hm in
/-- The promise of the module itself is not one of those that were rejected before. -/
theorem rejected_self (hs : s.Addressed) (hc : (s.cyclic m).capability = some c)
    (hp : s.Undecided c.promise) : (s₂.promise c.promise).settlement? = some (.rejected e) := by
  refine ht.rejected c hc ?_ (h.undecided (addressed_fail hi e hs) (x := m) ?_ ?_ hp)
  · rw [Made, h.promises]
    exact hs.made m c hc
  · exact fun hf => ne_of_falls_fail hi hf rfl
  · rw [field_fail hi e (·.capability) fun _ => rfl, hc]

omit hm in
/-- A promise that was decided before the module has failed is left alone. -/
theorem decided_fail (hs : s.Addressed) (hp : ¬s.Undecided p) :
    s₂.promise p = s.promise p := by
  have hp₁ : s₁.promise p = s.promise p := h.decided (addressed_fail hi e hs) p hp
  rw [← hp₁]
  by_cases hc : ∃ c, (s.cyclic m).capability = some c ∧ c.promise = p
  · obtain ⟨c, hc, rfl⟩ := hc
    exact ht.decided c hc (hs.strict m c hc) (by rwa [Undecided, hp₁])
  · exact ht.other p fun c hc' hcp => hc ⟨c, hc', hcp⟩

/-- A module that is not evaluated fails, then those that wait for it do, and its promise is
rejected. -/
theorem Spread.fail : Spread e [m] s s₂ := by
  have hself := falls_self hi hm h ht
  have hmodule := module_fail hi e
  have hawaited := awaitedBy_fail hi e
  have hcapability := field_fail hi e (·.capability) fun _ => rfl
  have hfalls := fun x => falls_iff_of_ne hi ht (x := x)
  exact
    { size := by rw [ht.modules, h.size, size_updateModule]
      kept := fun x hx => by
        have ex : x ≠ m := fun ex => hx (ex ▸ hself)
        rw [ht.module, h.kept x fun hf => hx ((hfalls x ex).2 hf), hmodule, if_neg ex]
      failed := fun x hx => by
        rw [ht.module]
        by_cases ex : x = m
        · rw [h.kept x fun hf => ne_of_falls_fail hi hf ex, hmodule, if_pos ex]
        · rw [h.failed x ((hfalls x ex).1 hx), hmodule, if_neg ex]
      all := fun x hx => by
        rw [List.mem_singleton.1 hx]
        exact hself.2
      onward := fun x y hx hy => by
        rw [ht.cyclic]
        by_cases ex : x = m
        · exact h.all y (by rwa [ex] at hy)
        · exact h.onward x y ((hfalls x ex).1 hx) (by rwa [hawaited])
      back := fun x hx => by
        refine ⟨m, List.mem_singleton_self m, ?_⟩
        by_cases ex : x = m
        · rw [ex]
        · obtain ⟨y, hy, hpath⟩ := h.back x ((hfalls x ex).1 hx)
          rw [hawaited] at hpath
          exact hpath.head hy
      promises := ht.size.trans h.promises
      spared := fun p hp => by
        rw [ht.other p, h.spared p]
        · rfl
        · intro x c hx hc
          rw [hcapability] at hc
          exact hp x c ((hfalls x (ne_of_falls_fail hi hx)).2 hx) hc
        · exact fun c hc => hp m c hself hc
      settled := fun p y hp => ht.settled p y (h.settled p y hp)
      decided := fun hs p hp => decided_fail hi h ht hs hp
      rejected := fun hs x c hx hc hp => by
        by_cases ex : x = m
        · subst ex
          exact rejected_self hi h ht hs hc hp
        · refine ht.settled _ _ ?_
          exact h.rejected (addressed_fail hi e hs) x c ((hfalls x ex).1 hx)
            (by rwa [hcapability]) hp }

end Fail

/-- What the recursion changes. -/
theorem Spreads.spread (h : Spreads host e s xs s') (hs : s.Tied)
    (hxs : ∀ x ∈ xs, ¬(s.cyclic x).status.IsIdle) : Spread e xs s s' := by
  induction h with
  | nil => exact .refl fun _ hx => nomatch hx
  | @skip s s' m rest hm _ ih =>
    have hm' : Spread e [m] s s := .refl fun x hx => by rw [List.mem_singleton.1 hx, hm]
    exact hm'.append (ih hs fun x hx => hxs x (List.mem_cons_of_mem _ hx))
  | @fail s s₁ s' m rest hm _ _ ihparents ihrest =>
    have hi := hxs m List.mem_cons_self
    have hparents := ihparents (tied_fail hi e hs) fun x hx => by
      refine tied_fail hi e hs m x ?_
      rwa [awaitedBy_fail hi]
    have hfirst := Spread.fail hi hm hparents (told_tellFailure s₁ host (s.cyclic m).capability e)
    exact hfirst.append (ihrest (hfirst.tied hs) fun x hx =>
      hfirst.awake (hxs x (List.mem_cons_of_mem _ hx)))

/-! ## The recursion ends -/

theorem failWaiting_eq (host : Host σ κ) (fuel : Nat) (s : Machine σ κ) (m : ModuleId) (e : Value)
    (hm : (s.cyclic m).status ≠ .evaluated) : s.failWaiting host (fuel + 1) m e =
      ((s.cyclic m).parents.foldl (fun s x => s.failWaiting host fuel x e)
        (s.updateModule m (·.failed e))).tellFailure host (s.cyclic m).capability e := by
  rw [failWaiting, if_neg hm]
  rfl

/-- A chain of modules that fail is not longer than the number of modules that are not evaluated. -/
theorem spreads_failWaiting (fuel : Nat) : ∀ (s : Machine σ κ) (xs : List ModuleId), s.Tied →
    (∀ x ∈ xs, ¬(s.cyclic x).status.IsIdle) → s.unfinished < fuel →
      Spreads host e s xs (xs.foldl (fun s x => s.failWaiting host fuel x e) s) := by
  induction fuel with
  | zero => exact fun _ _ _ _ hfuel => absurd hfuel (Nat.not_lt_zero _)
  | succ fuel ih =>
    intro s xs
    induction xs generalizing s with
    | nil => exact fun _ _ _ => .nil s
    | cons m rest ihrest =>
      intro hs hxs hfuel
      have hi := hxs m List.mem_cons_self
      rw [List.foldl_cons]
      by_cases hm : (s.cyclic m).status = .evaluated
      · rw [failWaiting, if_pos hm]
        exact .skip hm (ihrest s hs (fun x hx => hxs x (List.mem_cons_of_mem _ hx)) hfuel)
      rw [failWaiting_eq host fuel s m e hm]
      have hless : (s.updateModule m (·.failed e)).unfinished < s.unfinished := by
        refine unfinished_lt (size_updateModule ..) (fun x hx => ?_) (has_of_awake hi) hm
          (evaluated_fail hi e)
        by_cases ex : x = m
        · rw [ex, evaluated_fail hi]
        · rw [cyclic_fail hi, Function.update_of_ne ex, hx]
      have hparents := ih _ (s.cyclic m).parents (tied_fail hi e hs) (fun x hx => by
        refine tied_fail hi e hs m x ?_
        rwa [awaitedBy_fail hi]) (by omega)
      have hfirst : Spread e [m] s _ :=
        (Spreads.fail hm hparents (.nil _)).spread hs fun x hx => by
          rwa [List.mem_singleton.1 hx]
      have hle := unfinished_le hfirst.size fun _ => hfirst.evaluated
      exact .fail hm hparents (ihrest _ (hfirst.tied hs) (fun x hx =>
        hfirst.awake (hxs x (List.mem_cons_of_mem _ hx))) (by omega))

/-! ## How far it goes -/

namespace Working

theorem tied (h : s.Working journal owner reserved o ready released debt []) : s.Tied :=
  fun x y hy => (h.sound.awaits x y hy).awake

theorem addressed (h : s.Working journal owner reserved o ready released debt []) :
    s.Addressed where
  made m c hm := (h.coherent.capable m c hm).2
  strict m c hm := (h.coherent.capable m c hm).1
  distinct := h.coherent.distinct

theorem falls_iff (h : s.Working journal owner reserved o ready released debt [])
    (hd : (s.cyclic d).status = .evaluatingAsync) (hspread : Spread e [d] s s') :
    s.Falls s' x ↔ ReflTransGen s.AwaitedBy d x ∧ (s.cyclic x).status ≠ .evaluated := by
  constructor
  · intro hx
    obtain ⟨y, hy, hpath⟩ := hspread.back x hx
    rw [List.mem_singleton.1 hy] at hpath
    exact ⟨hpath, hx.1⟩
  · rintro ⟨hpath, hx⟩
    refine ⟨hx, ?_⟩
    clear hx
    -- A module that was evaluated before has failed, and whoever waits for it is evaluated.
    induction hpath with
    | refl => exact hspread.all d (List.mem_singleton_self d)
    | @tail b c hb hstep ih =>
      by_cases hf : s.Falls s' b
      · exact hspread.onward b c hf hstep
      · rw [cyclic_of_module (hspread.kept b hf)] at ih
        exact hspread.evaluated
          (h.sound.evaluated_of_awaited rfl hstep ih (h.sound.incomplete_of_awaited hd hb))

end Working

/-- An occasion in a run for modules to fail: between two steps, when the end of a body is to be
told, or when modules that have become ready are run one after the other. -/
inductive Occasion (journal : σ → Journal) (reserved : Set PromiseId) (hosts : Set (Host σ κ)) :
    Machine σ κ → Prop
  | rest {s : Machine σ κ} : Reachable journal reserved hosts s → Occasion journal reserved hosts s
  | taken {s : Machine σ κ} {r : ReactionId} {x : Settlement} {d : ModuleId} :
      s.TellsEnd journal reserved hosts r x d → Occasion journal reserved hosts (s.takeFirst r)
  | draining {s : Machine σ κ} {host : Host σ κ} {todo : List ModuleId} : host ∈ hosts →
      s.Draining journal reserved hosts host todo → Occasion journal reserved hosts s
  | threw {s s' : Machine σ κ} {host : Host σ κ} {m : ModuleId} {todo : List ModuleId}
      {e : Value} : host ∈ hosts → s.Draining journal reserved hosts host (m :: todo) →
      s.status m ≠ .evaluated → s.hasAwait m = false →
      runSyncBody host m s = some (.error e, s') → Occasion journal reserved hosts s'

theorem Occasion.working (hc : Conduct journal owner reserved hosts)
    (h : s.Occasion journal reserved hosts) : ∃ o ready released,
      s.Working journal owner reserved o ready released [] [] := by
  cases h with
  | rest h =>
    have hr := h.resting hc
    exact ⟨_, [], [], Resting.working hr.sound hr.coherent ⟨rfl, rfl, id⟩ rfl⟩
  | taken h => exact ⟨_, [], [], h.working hc⟩
  | draining hh h =>
    obtain ⟨released, hr⟩ := h.running hc hh
    exact ⟨_, _, released, hr.toWorking⟩
  | threw hh h hm ha hrun =>
    obtain ⟨released, hr⟩ := h.running hc hh
    have hcyc := isCyclic_of_awake (hr.awake_ready List.mem_cons_self)
    rw [status_of_isCyclic hcyc] at hm
    rw [hasAwait_eq] at ha
    exact ⟨_, _, released, (hr.ranSync hc hh hm ha hrun).1⟩

/-- A module fails together with `d`: it is `d`, or it waits for `d`, through others too, and it is
not evaluated. -/
def FailsWith (s : Machine σ κ) (d x : ModuleId) : Prop :=
  ReflTransGen s.AwaitedBy d x ∧ s.status x ≠ .evaluated

/-- What it means that a module fails with a value, and nothing else happens. -/
structure FailsAlong (reserved : Set PromiseId) (d : ModuleId) (e : Value) (s s' : Machine σ κ) :
    Prop where
  /-- What fails is evaluated with the value as its error. Beside these two fields only its turn is
  lost. -/
  failed : ∀ x, s.FailsWith d x → s'.status x = .evaluated ∧ s'.evaluationError? x = some e ∧
    s'.module x = (s.module x).failed e
  /-- No other module changes. -/
  kept : ∀ x, ¬s.FailsWith d x → s'.module x = s.module x ∧
    s'.evaluationError? x = s.evaluationError? x
  /-- Whoever asked for the evaluation of a module that fails is told so, unless the promise is
  decided: then there is nothing left to reject. -/
  rejected : ∀ x c, s.FailsWith d x → (s.cyclic x).capability = some c → s.Undecided c.promise →
    (s'.promise c.promise).settlement? = some (.rejected e)
  /-- A reserved promise has not been decided before. -/
  undecided : ∀ x c, s.FailsWith d x → (s.cyclic x).capability = some c → c.promise ∈ reserved →
    s.Undecided c.promise
  /-- No other promise changes. -/
  spared : ∀ p, (∀ x c, s.FailsWith d x → (s.cyclic x).capability = some c → c.promise = p →
    ¬s.Undecided p) → s'.promise p = s.promise p
  /-- No error is overwritten. -/
  first : ∀ x e', s.evaluationError? x = some e' → s'.evaluationError? x = some e'

/-- The error of an evaluated leaf is the reason of its promise. -/
theorem evaluationError?_of_leaf {y : Settlement} (hx : (s.module x).kind = .leaf (.evaluated p))
    (hp : (s.promise p).settlement? = some y) :
    s.evaluationError? x = y.reason? := by
  rw [evaluationError?, hx]
  dsimp only
  cases hs : s.promise p <;> rw [hs] at hp <;> cases hp <;> rfl

/-- The error of a module that has not changed. The promise of a leaf was settled when the leaf was
evaluated. -/
theorem evaluationError?_of_module (h : s.Coherent journal owner reserved o)
    (hp : ∀ p y, (s.promise p).settlement? = some y → (s'.promise p).settlement? = some y)
    (hx : s'.module x = s.module x) : s'.evaluationError? x = s.evaluationError? x := by
  cases hk : (s.module x).kind with
  | source | foreign => rw [evaluationError?, evaluationError?, hx, hk]
  | leaf state =>
    cases state with
    | unlinked | linked => rw [evaluationError?, evaluationError?, hx, hk]
    | evaluated p =>
      obtain ⟨y, hy, -⟩ := h.leaves x p (by rw [hk]; rfl)
      rw [evaluationError?_of_leaf hk hy, evaluationError?_of_leaf (hx ▸ hk) (hp p y hy)]

/-- What the failure of a module that waits comes to. -/
theorem Working.failsAlong (h : s.Working journal owner reserved o ready released debt [])
    (hd : (s.cyclic d).status = .evaluatingAsync) (hspread : Spread e [d] s s') :
    FailsAlong reserved d e s s' := by
  have hcyc : ∀ x, ReflTransGen s.AwaitedBy d x → s.isCyclic x := fun x hx => by
    refine isCyclic_of_awake ?_
    obtain rfl | ⟨y, -, hy⟩ := hx.cases_tail
    · exact Status.awake_of_evaluatingAsync hd
    · exact h.tied y x hy
  have hfalls : ∀ x, s.FailsWith d x ↔ s.Falls s' x := fun x => by
    rw [h.falls_iff hd hspread]
    exact and_congr_right fun hx => by rw [status_of_isCyclic (hcyc x hx)]
  have herror : ∀ x, ¬s.FailsWith d x → s'.evaluationError? x = s.evaluationError? x := fun x hx =>
    evaluationError?_of_module h.coherent hspread.settled
      (hspread.kept x fun hf => hx ((hfalls x).2 hf))
  refine ⟨fun x hx => ?_, fun x hx => ?_, fun x c hx hc hp => ?_, fun x c hx hc hp => ?_,
    fun p hp => ?_, fun x e' he => ?_⟩
  · have hf := (hfalls x).1 hx
    have hfailed := hspread.failed x hf
    have hs' : s'.isCyclic x := isCyclic_of_awake (Status.awake_of_evaluated hf.2)
    refine ⟨by rw [status_of_isCyclic hs', hf.2], ?_, hfailed⟩
    obtain ⟨c, hc⟩ := Option.isSome_iff_exists.1 (hcyc x hx.1)
    have hc' : s'.cyclic? x = some { c.fail e with order := .done } := by
      rw [cyclic?, hfailed, Module.failed, ModuleKind.cyclic?_updateCyclic, ← cyclic?, hc]
      rfl
    rw [evaluationError?_of_isCyclic hs', cyclic_of_cyclic? hc']
    rfl
  · exact ⟨hspread.kept x fun hf => hx ((hfalls x).2 hf), herror x hx⟩
  · exact hspread.rejected h.addressed x c ((hfalls x).1 hx) hc hp
  · exact (h.coherent.tells x c hc hp).waiting (.inr ((hfalls x).1 hx).1)
  · by_cases hu : s.Undecided p
    · exact hspread.spared p fun x c hx hc hcp => hp x c ((hfalls x).2 hx) hc hcp hu
    · exact hspread.decided h.addressed p hu
  · rw [herror x fun hx => ?_, he]
    have hxc := hcyc x hx.1
    rw [evaluationError?_of_isCyclic hxc] at he
    refine hx.2 ?_
    rw [status_of_isCyclic hxc]
    have hne : (s.cyclic x).error ≠ none := by
      rw [he]
      rintro ⟨⟩
    exact (h.sound.shaped x).evaluated_of_failed hne

/-- **A failure spreads to the modules that wait.** On any occasion in a run, let the body of a
module that waits throw a value. Then the recursion ends, and it has one outcome: the module fails
with that value, and so does each module that waits for it, through others too, and is not evaluated
yet. The promises that answer for the evaluation of these are rejected with the value, unless the
host has decided them. All other modules and promises stay as they are, and so does every error that
was there before. -/
theorem failure_spreads_to_waiting (hc : Conduct journal owner reserved hosts)
    (h : s.Occasion journal reserved hosts) (hd : s.status d = .evaluatingAsync) (host : Host σ κ)
    (e : Value) : (∀ s', Spreads host e s [d] s' ↔ s' = s.bodyFailed host d e) ∧
      FailsAlong reserved d e s (s.bodyFailed host d e) := by
  have hd' : (s.cyclic d).status = .evaluatingAsync := by
    rw [← hd, status_of_isCyclic (isCyclic_of_status (.inr hd))]
  obtain ⟨o, ready, released, hw⟩ := h.working hc
  have hawake : ∀ x ∈ [d], ¬(s.cyclic x).status.IsIdle := fun x hx => by
    rw [List.mem_singleton.1 hx]
    exact Status.awake_of_evaluatingAsync hd'
  have hspreads : Spreads host e s [d] (s.bodyFailed host d e) :=
    spreads_failWaiting _ s [d] hw.tied hawake (Nat.lt_succ_of_le s.unfinished_le_size)
  refine ⟨fun s' => ⟨fun hs' => hspreads.unique hs', fun hs' => hs' ▸ hspreads⟩, ?_⟩
  exact hw.failsAlong hd' (hspreads.spread hw.tied hawake)

/-- When module `3` of the diamond throws, module `0` fails through the modules `1` and `2`, and the
promise of its evaluation is rejected. -/
theorem failure_spreads_to_waiting_diamond :
    (∀ s', Spreads Diamond.host (.boolean true) Diamond.waiting [⟨3⟩] s' ↔
        s' = Diamond.waiting.bodyFailed Diamond.host ⟨3⟩ (.boolean true)) ∧
      (Diamond.waiting.bodyFailed Diamond.host ⟨3⟩ (.boolean true)).evaluationError? ⟨0⟩ =
        some (.boolean true) ∧
      ((Diamond.waiting.bodyFailed Diamond.host ⟨3⟩ (.boolean true)).promise ⟨0⟩).settlement? =
        some (.rejected (.boolean true)) := by
  obtain ⟨houtcome, hfails⟩ := failure_spreads_to_waiting (diamond.conduct 9 Set.univ)
    (.rest (Diamond.reachable_waiting Set.univ)) (show Diamond.waiting.status ⟨3⟩ = _ from rfl)
    Diamond.host (.boolean true)
  have hfar : Diamond.waiting.FailsWith ⟨3⟩ ⟨0⟩ := by
    have h₃ : Diamond.waiting.AwaitedBy ⟨3⟩ ⟨1⟩ := by
      rw [AwaitedBy, show (Diamond.waiting.cyclic ⟨3⟩).parents = [⟨1⟩, ⟨1⟩, ⟨2⟩] from rfl]
      decide
    have h₁ : Diamond.waiting.AwaitedBy ⟨1⟩ ⟨0⟩ := by
      rw [AwaitedBy, show (Diamond.waiting.cyclic ⟨1⟩).parents = [⟨0⟩] from rfl]
      decide
    refine ⟨(ReflTransGen.single h₃).tail h₁, ?_⟩
    rw [show Diamond.waiting.status ⟨0⟩ = .evaluatingAsync from rfl]
    exact fun e => nomatch e
  exact ⟨houtcome, (hfails.failed _ hfar).2.1,
    hfails.rejected ⟨0⟩ ⟨⟨0⟩, true⟩ hfar rfl rfl⟩

end Machine

end ModuleGraph
