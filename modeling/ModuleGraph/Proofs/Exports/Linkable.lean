import ModuleGraph.Proofs.Exports.Visits

/-! # What a link decides

A link succeeds just if everything that the modules below take from elsewhere can be resolved.
Modules that were linked before are not checked again, and need not be: whatever is linked has been
checked together with all that it requests. -/

namespace ModuleGraph

open Relation

variable {σ κ : Type}

/-- The name of an existing module resolves, always to the same binding. -/
def Host.Binds (host : Host σ κ) (world : Machine σ κ → Prop) (m : ModuleId) (name : String) :
    Prop :=
  ∃ n b, ∀ s, world s → s.Has m →
    ∃ s', host.resolution m name s = some (.ok (some (.found n b)), s')

namespace ExportGraph

variable {G : ExportGraph} {journal : σ → Journal} {world : Machine σ κ → Prop} {host : Host σ κ}
variable {s s' : Machine σ κ} {m n x : ModuleId} {name : String} {record : SourceRecord}
variable {result : Except LinkError Unit}

/-- All that a module requests, imports and exports from elsewhere can be resolved. -/
def Resolvable (G : ExportGraph) (world : Machine σ κ → Prop) (host : Host σ κ) (m : ModuleId) :
    Prop :=
  ∀ record, G.source m = some record →
    (∀ request ∈ record.requested, ∃ n, G.target m request = some n) ∧
    (∀ i ∈ record.imports, ∀ name, i.importName = some name →
      ∃ n, G.target m i.request = some n ∧ host.Binds world n name) ∧
    ∀ e ∈ record.indirectExports, host.Binds world m e.exportName

/-- The machines that links of modules of the graph lead to. Anything else may happen between two
links, as long as modules that are not linked stay as they are. What operations do is of this kind:
see `Conforms.reachable`. -/
inductive Reachable (G : ExportGraph) (journal : σ → Journal) (world : Machine σ κ → Prop)
    (host : Host σ κ) : Machine σ κ → Prop
  | initial (h : σ) : Reachable G journal world host (Machine.initial h)
  | advance {s s' : Machine σ κ} : Reachable G journal world host s → s.Advances journal s' →
      Reachable G journal world host s'
  | link {s s' : Machine σ κ} {m : ModuleId} {result : Except LinkError Unit} :
      Reachable G journal world host s → world s → m ∈ G.modules → s.Has m →
      host.link m s = some (result, s') → Reachable G journal world host s'

/-! ## Resolvable modules are sound -/

theorem exists_has (h : G.Serves world host) (hw : world s) (hm : m ∈ G.modules) (hh : s.Has m)
    (hn : ReflTransGen G.Requests m n) : ∃ s', world s' ∧ s'.Has n := by
  induction hn with
  | refl => exact ⟨s, hw, hh⟩
  | tail hx hr ih =>
    obtain ⟨s₁, hw₁, hh₁⟩ := ih
    obtain ⟨record, -, request, -, ht⟩ := hr
    obtain ⟨s₂, hrun, hn⟩ := h.answers hw₁ (mem_of_requests hx hm) hh₁ ht
    exact ⟨s₂, (h.resolve _ _ _ _ _ hrun hw₁).1, hn⟩

section Resolvable

variable (h : G.Serves world host) (hwf : G.WellFormed) (hdepth : G.bound < host.depth)
include h hwf hdepth

theorem binds_iff (hc : G.Clear m) (hm : m ∈ G.modules) (hex : ∃ s, world s ∧ s.Has m) :
    host.Binds world m name ↔ ∃ b, G.Binds (m, name) b := by
  constructor
  · rintro ⟨n, b, hb⟩
    obtain ⟨s, hw, hh⟩ := hex
    obtain ⟨s', hrun⟩ := hb s hw hh
    obtain ⟨r, s₁, hrun', htells⟩ := resolution_tells h hdepth hw hm hh name
    cases hrun.symm.trans hrun'
    exact ⟨(n, b), (Tells.binds (b := (n, b)) htells).1⟩
  · rintro ⟨b, hb⟩
    refine ⟨b.1, b.2, fun s hw hh => ?_⟩
    obtain ⟨r, s', hrun, htells⟩ := resolution_tells h hdepth hw hm hh name
    refine ⟨s', hrun.trans ?_⟩
    rw [htells.of_binds (fun q hq => hc.not_blocked hwf.listed hq) hb]

theorem resolvable_iff (hc : G.Clear m) (hm : m ∈ G.modules) (hex : ∃ s, world s ∧ s.Has m) :
    G.Resolvable world host m ↔ G.Sound m := by
  refine forall_congr' fun record => forall_congr' fun hs => and_congr_right fun hr => ?_
  rw [and_comm]
  refine and_congr (forall₂_congr fun e he => ?_) (forall₂_congr fun i hi => ?_)
  · obtain ⟨n, ht⟩ := hr e.request ((hwf m record hs).indirect e he)
    rw [binds_iff h hwf hdepth hc hm hex, takes_iff (hwf m record hs) hs he ht]
  · obtain ⟨n, ht⟩ := hr i.request ((hwf m record hs).imports i hi)
    have hreq : G.Requests m n := ⟨record, hs, _, (hwf m record hs).imports i hi, ht⟩
    have hexn : ∃ s, world s ∧ s.Has n := by
      obtain ⟨s, hw, hh⟩ := hex
      exact exists_has h hw hm hh (.single hreq)
    simp only [Takes, ht, Option.some.injEq, exists_eq_left',
      binds_iff h hwf hdepth (hc.of_requests (.single hreq)) (G.closed hm ht) hexn]

/-- All modules below are resolvable just if they are sound. -/
theorem resolvable_below_iff (hw : world s) (hm : m ∈ G.modules) (hh : s.Has m) :
    (∀ n, ReflTransGen G.Requests m n → G.Resolvable world host n) ↔ G.SoundBelow m := by
  have hiff : ∀ n, G.Clear m → ReflTransGen G.Requests m n →
      (G.Resolvable world host n ↔ G.Sound n) := fun n hc hn =>
    resolvable_iff h hwf hdepth (hc.of_requests hn) (mem_of_requests hn hm)
      (exists_has h hw hm hh hn)
  constructor
  · intro hr
    have hc : G.Clear m := by
      rintro n hn ⟨record, hs, request, hreq, ht⟩
      obtain ⟨x, hx⟩ := (hr n hn record hs).1 request hreq
      rw [ht] at hx
      cases hx
    exact fun n hn => (hiff n hc hn).1 (hr n hn)
  · exact fun hsound n hn => (hiff n (clear_of_sound hsound) hn).2 (hsound n hn)

end Resolvable

/-! ## Links -/

theorem status_unlink (stack : List ModuleId) (s : Machine σ κ) (x : ModuleId) :
    (stack.foldl Machine.unlink s).status x = s.status x ∨
      (stack.foldl Machine.unlink s).status x = .unlinked := by
  induction stack generalizing s with
  | nil => exact .inl rfl
  | cons y rest ih =>
    rw [List.foldl_cons]
    rcases ih (s.unlink y) with e | e
    · rw [e, Machine.unlink_eq_updateKind]
      refine (Machine.status_updateKind s y x fun k => ?_).imp id And.right
      cases k with
      | leaf state => exact .inl rfl
      | _ => exact .inr rfl
    · exact .inr e

section Links

variable (h : G.Links journal world host) (hwf : G.WellFormed) (hdepth : G.bound < host.depth)
include h hwf hdepth

/-- A link has a result. What it links is sound, and it succeeds if all modules below are sound. -/
theorem link_returns (hw : world s) (hm : m ∈ G.modules) (hh : s.Has m) :
    ∃ result s', host.link m s = some (result, s') ∧ world s' ∧
      (∀ x, (s'.status x).IsLinked → (s.status x).IsLinked ∨ G.Sound x) ∧
      (G.SoundBelow m → result = .ok ()) := by
  have hcard : (G.unlinked s).card < host.depth :=
    ((Finset.card_filter_le _ _).trans G.card_modules_le).trans_lt hdepth
  obtain ⟨r, t, s₁, hrun, ⟨hw₁, -⟩, hc, -, hp⟩ :=
    visitLinking_visits h hwf hdepth host.depth [] m ⟨[], 0⟩ s hw hm hh hcard
  cases r with
  | ok u => exact ⟨.ok (), s₁, Run.bind_eq_some.2 ⟨_, s₁, hrun, rfl⟩, hw₁, hc.linked, fun _ => rfl⟩
  | error e =>
    refine ⟨.error e, t.stack.foldl Machine.unlink s₁, Run.bind_eq_some.2 ⟨_, s₁, hrun, rfl⟩, ?_,
      fun x hx => hc.linked x ?_, fun hg => absurd trivial (hp.not_of_error hg)⟩
    · have hunlink : ∀ (s : Machine σ κ) x, Machine.Stays world s (s.unlink x) := fun s x => by
        rw [Machine.unlink_eq_updateKind]
        exact h.text s x fun y => by cases y.kind <;> exact ⟨rfl, rfl⟩
      exact (h.foldl hunlink t.stack s₁ hw₁).1
    · rcases status_unlink t.stack s₁ x with e | e <;> rw [e] at hx
      · exact hx
      · exact hx.elim

/-- What is linked between two links is sound. -/
theorem Reachable.sound (hs : G.Reachable journal world host s) :
    s.AtRest journal ∧ ∀ x, (s.status x).IsLinked → G.Sound x := by
  induction hs with
  | initial h₀ =>
    refine ⟨Machine.atRest_initial h₀, fun x hx => ?_⟩
    have hu : ((Machine.initial h₀ : Machine σ κ).status x) = .unlinked :=
      (Machine.isNew_of_not_has (Nat.not_lt_zero _)).isUnlinked.status_eq
    rw [hu] at hx
    exact hx.elim
  | @advance s s' _ ha ih =>
    obtain ⟨hrest, hsound⟩ := ih
    refine ⟨hrest.advance ha, fun x hx => hsound x ?_⟩
    by_contra hl
    have hu := hrest.unlinked x hl
    have hu' : (s'.module x).kind.IsUnlinked := by
      by_cases hh : s.Has x
      · rw [ha.unlinked x hh hu.status_eq]
        exact hu
      · exact (ha.made x hh).isUnlinked
    rw [Machine.status, hu'.status_eq] at hx
    exact hx
  | @link s s' m result _ hw hm hh hrun ih =>
    obtain ⟨hrest, hsound⟩ := ih
    obtain ⟨result', s₁, hrun', -, hlinked, -⟩ := link_returns h hwf hdepth hw hm hh
    cases hrun.symm.trans hrun'
    exact ⟨(Machine.link_ends h.conduct hrest hh hrun).1.atRest,
      fun x hx => (hlinked x hx).elim (hsound x) id⟩

/-- A link in a graph of source text modules and of leaves that resolve their names in the simplest
way, after any links before. It has a result, and it succeeds just if, for every module that is
requested below, each request has an answer, and each import of a name and each indirect export
resolves to one binding. -/
theorem link_decides_resolvability (hs : G.Reachable journal world host s) (hw : world s)
    (hm : m ∈ G.modules) (hh : s.Has m) :
    ∃ result s', host.link m s = some (result, s') ∧
      (result = .ok () ↔ ∀ n, ReflTransGen G.Requests m n → G.Resolvable world host n) := by
  obtain ⟨result, s', hrun, hw', -, hok⟩ := link_returns h hwf hdepth hw hm hh
  refine ⟨result, s', hrun, ?_⟩
  rw [resolvable_below_iff h.serves hwf hdepth hw hm hh]
  refine ⟨fun hr => ?_, hok⟩
  have hrest := (hs.sound h hwf hdepth).1
  have hsound := ((hs.link hw hm hh hrun).sound h hwf hdepth).2
  obtain ⟨hin, hlinked⟩ := Machine.link_ends h.conduct hrest hh hrun
  intro n hn
  refine hsound n ?_
  induction hn with
  | refl => exact hlinked hr
  | @tail x y hx hxy ih =>
    obtain ⟨record, hrec, request, hreq, ht⟩ := hxy
    have hmx := mem_of_requests hx hm
    have hhas : s'.Has x := Machine.has_of_status_ne fun e => by rw [e] at ih; exact ih
    have hrequested : s'.requested x = record.requested := by
      rw [Machine.requested, h.requested hw' hmx hhas, hrec]
      rfl
    obtain ⟨z, hz, hlz⟩ := hin.answered x ih request (hrequested ▸ hreq)
    have htz := h.noted hw' hmx hz
    rw [ht] at htz
    cases htz
    exact hlz

end Links

end ExportGraph

/-! ## The graph of a plan -/

namespace Plan

variable {base : Machine Journal ModuleId}

theorem exporting_linkConduct (plan : Plan) (names : ModuleId → List String) (depth : Nat) :
    LinkConduct id (plan.exporting names depth) :=
  have h := plan.linkConduct depth
  have hc := Machine.Keeps.composes id fun _ => False
  { resolve := h.resolve
    answers := h.answers
    exportedNames := fun _ => Within.pure hc _
    resolveExport := fun _ _ _ => Within.pure hc _
    linkLeaf := h.linkLeaf
    initializeForeign := h.initializeForeign
    instantiateForeign := h.instantiateForeign
    prepare := h.prepare }

theorem exporting_found {plan : Plan} {names : ModuleId → List String} {depth : Nat}
    {referrer : Referrer} {specifier : String} {n : ModuleId} {s s' : Machine Journal ModuleId}
    (h : (plan.exporting names depth).resolve referrer specifier s = some (.ok n, s')) :
    s'.Has n := by
  cases referrer with
  | module m => exact (answer_noted h).2
  | script i => cases h

theorem links (plan : Plan) (names : ModuleId → List String) (depth : Nat)
    (hbase : ∀ m, (base.cyclic? m).map (·.requested) = (base.record? m).map (·.requested)) :
    (plan.graph names base).Links id (plan.Shows base) (plan.exporting names depth) where
  serves := plan.serves names base depth
  conduct := plan.exporting_linkConduct names depth
  requested h _ _ := (h.text _).2.trans (hbase _)
  noted h _ he := h.noted he
  text s m _ hf := plan.stays_updateModule base s m hf
  linkLeaf _ := Within.pure (Machine.Stays.composes _) _
  linksLeaf _ _ _ := ⟨_, rfl⟩
  prepare _ := Within.pure (Machine.Stays.composes _) _
  prepares _ _ _ := ⟨_, rfl⟩

end Plan

namespace Entangled

theorem modules_reachable {G : ExportGraph} {world : Machine Journal ModuleId → Prop}
    {host : Host Journal ModuleId} : G.Reachable id world host modules := by
  refine (ExportGraph.Reachable.initial modules.host).advance <|
    Machine.advances_of_isNew fun m => ?_
  obtain ⟨_ | _ | _ | _ | n⟩ := m
  · exact ⟨rfl, rfl⟩
  · exact ⟨rfl, rfl⟩
  · exact ⟨rfl, rfl⟩
  · exact rfl
  · exact Machine.isNew_of_not_has (by simp [Machine.Has, modules])

theorem module_default (n : Nat) : modules.module ⟨n + 4⟩ = default :=
  Machine.module_of_not_has (by simp [Machine.Has, modules])

theorem requested_modules (m : ModuleId) :
    (modules.cyclic? m).map (·.requested) = (modules.record? m).map (·.requested) := by
  match m with
  | ⟨0⟩ => rfl
  | ⟨1⟩ => rfl
  | ⟨2⟩ => rfl
  | ⟨3⟩ => rfl
  | ⟨n + 4⟩ =>
    rw [Machine.cyclic?, Machine.record?, module_default]
    rfl

theorem wellFormed : (plan.graph names modules).WellFormed := by
  intro m record hs
  change modules.record? m = some record at hs
  match m with
  | ⟨0⟩ => cases hs; exact ⟨by decide, by decide, by decide, by decide⟩
  | ⟨1⟩ => cases hs; exact ⟨by decide, by decide, by decide, by decide⟩
  | ⟨2⟩ => cases hs; exact ⟨by decide, by decide, by decide, by decide⟩
  | ⟨3⟩ => cases hs
  | ⟨n + 4⟩ =>
    rw [Machine.record?, module_default] at hs
    cases hs
    exact ⟨by decide, by decide, by decide, by decide⟩

end Entangled

open Entangled in
/-- The link of the first module of the cycle. -/
theorem link_decides_resolvability_entangled :
    (plan.graph names modules).bound < 9 ∧
    ∃ result s', (plan.exporting names 9).link ⟨0⟩ modules = some (result, s') ∧
      (result = .ok () ↔ ∀ n, ReflTransGen (plan.graph names modules).Requests ⟨0⟩ n →
        (plan.graph names modules).Resolvable (plan.Shows modules) (plan.exporting names 9) n) := by
  have hbound : (plan.graph names modules).bound < 9 := by decide
  exact ⟨hbound, ExportGraph.link_decides_resolvability (plan.links names 9 requested_modules)
    wellFormed hbound modules_reachable (plan.shows_self rfl)
    (Plan.mem_graph.2 (by decide : 0 < 4)) (by decide : 0 < 4)⟩

end ModuleGraph
