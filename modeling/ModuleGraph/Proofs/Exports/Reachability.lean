import ModuleGraph.Proofs.Exports.Search
import ModuleGraph.Proofs.Planned

/-! # Resolution is reachability

A search that starts with nothing visited asks all pairs that its first one leads to. So it tells
how many bindings the name provides: none, one, or more. -/

namespace ModuleGraph

open Relation

variable {σ κ : Type}

namespace ExportGraph

variable {G : ExportGraph} {world : Machine σ κ → Prop} {host : Host σ κ} {s s' : Machine σ κ}
variable {p : ModuleId × String} {m : ModuleId} {name : String}

/-- What the resolution of a name tells. It throws only at a request that is refused. -/
inductive Tells (G : ExportGraph) (s' : Machine σ κ) (p : ModuleId × String) :
    Except Value (Option Resolution) → Prop
  | threw {e : Value} {q : ModuleId × String} : ReflTransGen G.Leads p q → G.Blocked q →
      Tells G s' p (.error e)
  | settled {found : Option (ModuleId × BindingName)} :
      (∀ b, found = some b ↔ G.Provides p b) → (∀ b, found = some b → s'.Has b.1) →
      Tells G s' p (.ok (found.map fun (m, b) => .found m b))
  | ambiguous {b c : ModuleId × BindingName} : G.Provides p b → G.Provides p c → b ≠ c →
      Tells G s' p (.ok (some .ambiguous))

/-- A search with nothing visited asks exactly the pairs that its first one leads to. -/
theorem Covers.mem_iff {fresh : Set (ModuleId × String)} {visited : Visited}
    (h : G.Covers p [] fresh visited) (q : ModuleId × String) :
    q ∈ fresh ↔ ReflTransGen G.Leads p q := by
  refine ⟨h.reach q, fun hq => ?_⟩
  induction hq with
  | refl => exact h.start.resolve_left List.not_mem_nil
  | tail _ hl ih => exact (h.closed _ ih _ hl).resolve_left List.not_mem_nil

theorem Ends.tells {r : Except Value (Option Resolution × Visited)} (h : G.Ends s' p [] r) :
    G.Tells s' p (r.map (·.1)) := by
  cases h with
  | threw hq hb => exact .threw hq hb
  | ambiguous hb hc hne => exact .ambiguous hb hc hne
  | settled fresh found hc hsum hh =>
    refine .settled (fun b => ?_) hh
    rw [hsum b]
    simp only [hc.mem_iff, Provides]

/-- The resolution of a name has a result. -/
theorem resolution_tells (h : G.Serves world host) (hdepth : G.bound < host.depth) (hw : world s)
    (hm : m ∈ G.modules) (hh : s.Has m) (name : String) :
    ∃ r s', host.resolution m name s = some (r, s') ∧ G.Tells s' (m, name) r := by
  have hcard : (unasked (G.pairs name) []).card < host.depth :=
    ((Finset.card_filter_le _ _).trans (G.card_pairs_le name)).trans_lt hdepth
  obtain ⟨r, s', hrun, hends⟩ :=
    searches h name host.depth m name [] s hw hm hh (mem_pairs_self hm) hcard
  refine ⟨_, s', ?_, hends.tells⟩
  cases r with
  | ok r => exact throwing_bind.2 (.inl ⟨r, s', hrun, rfl⟩)
  | error e => exact throwing_bind.2 (.inr ⟨e, hrun, rfl⟩)

/-- No search meets a request that is refused if there is none. -/
theorem not_blocked (ht : ∀ m ∈ G.modules, ∀ request, ∃ n, G.target m request = some n)
    (hp : p.1 ∈ G.modules) : ¬G.Blocked p := by
  intro h
  cases h with
  | @indirect m name record e _ _ _ hn =>
    obtain ⟨n, hn'⟩ := ht m hp e.request
    rw [hn] at hn'
    cases hn'
  | @star m name record request _ _ _ _ _ hn =>
    obtain ⟨n, hn'⟩ := ht m hp request
    rw [hn] at hn'
    cases hn'

/-- In a finite graph whose requests all have answers, with whatever cycles of exports, the
resolution of a name has a result. It finds nothing if no binding is reachable from the name, the
binding if just one is, and an ambiguity if there are several. -/
theorem resolution_decides_reachability (h : G.Serves world host)
    (ht : ∀ m ∈ G.modules, ∀ request, ∃ n, G.target m request = some n)
    (hdepth : G.bound < host.depth) (hw : world s) (hm : m ∈ G.modules) (hh : s.Has m)
    (name : String) :
    ∃ resolution s', host.resolution m name s = some (.ok resolution, s') ∧
      (resolution = none ↔ ∀ b, ¬G.Provides (m, name) b) ∧
      (∀ n b, resolution = some (.found n b) ↔ ∀ c, G.Provides (m, name) c ↔ c = (n, b)) ∧
      (resolution = some .ambiguous ↔
        ∃ b c, G.Provides (m, name) b ∧ G.Provides (m, name) c ∧ b ≠ c) := by
  obtain ⟨r, s', hrun, htells⟩ := resolution_tells h hdepth hw hm hh name
  cases htells with
  | threw hq hb => exact absurd hb (not_blocked ht (mem_of_leads hq hm))
  | @settled found hfound hhas =>
    refine ⟨_, s', hrun, ?_, fun n b => ?_, ?_⟩
    · rw [Option.map_eq_none_iff, Option.eq_none_iff_forall_ne_some]
      exact forall_congr' fun b => not_congr (hfound b)
    · have hsome : found.map (fun (m, b) => Resolution.found m b) = some (.found n b) ↔
          found = some (n, b) := by
        cases found with
        | none => simp
        | some c => simp [Prod.ext_iff]
      rw [hsome]
      constructor
      · intro hb c
        rw [← hfound, hb, Option.some.injEq, eq_comm]
      · exact fun hb => (hfound _).2 ((hb _).2 rfl)
    · refine ⟨fun hamb => ?_, fun ⟨b, c, hb, hc, hne⟩ => ?_⟩
      · cases found <;> cases hamb
      · rw [← hfound] at hb hc
        exact absurd (Option.some.inj (hb.symm.trans hc)) hne
  | @ambiguous b c hb hc hne =>
    refine ⟨_, s', hrun, ⟨(nomatch ·), fun hn => absurd hb (hn b)⟩, fun n d => ?_,
      ⟨fun _ => ⟨b, c, hb, hc, hne⟩, fun _ => rfl⟩⟩
    refine ⟨(nomatch ·), fun hd => ?_⟩
    exact absurd (((hd b).1 hb).trans ((hd c).1 hc).symm) hne

end ExportGraph

/-! ## The graph of a plan -/

namespace Plan

variable {plan : Plan} {names : ModuleId → List String} {base s s' : Machine Journal ModuleId}
variable {depth : Nat}

def graph (plan : Plan) (names : ModuleId → List String) (base : Machine Journal ModuleId) :
    ExportGraph where
  modules := (Finset.range base.modules.size).image ModuleId.mk
  source := base.record?
  names := names
  target m request := (plan.target m request).filter (·.index < base.modules.size)
  closed {_ _ n} _ h := by
    have hn : n.index < base.modules.size := by simpa using (Option.filter_eq_some_iff.1 h).2
    exact Finset.mem_image.2 ⟨n.index, Finset.mem_range.2 hn, rfl⟩

theorem mem_graph {m : ModuleId} : m ∈ (plan.graph names base).modules ↔ base.Has m := by
  refine Finset.mem_image.trans ⟨?_, fun h => ⟨m.index, Finset.mem_range.2 h, rfl⟩⟩
  rintro ⟨i, hi, rfl⟩
  exact Finset.mem_range.1 hi

theorem target_graph {m n : ModuleId} {request : String} :
    (plan.graph names base).target m request = some n ↔
      plan.target m request = some n ∧ base.Has n := by
  change Option.filter _ _ = some n ↔ _
  rw [Option.filter_eq_some_iff, decide_eq_true_iff, Machine.Has]

/-- The host that follows a plan and whose own modules export the given names. -/
def exporting (plan : Plan) (names : ModuleId → List String) (depth : Nat) :
    Host Journal ModuleId :=
  { plan.host depth with
    exportedNames := fun m => pure (names m)
    resolveExport := fun m name visited => pure (ownResolution (names m) m name, visited) }

/-- The machines with the modules of another one, and with a journal that is true to the plan. -/
structure Shows (plan : Plan) (base s : Machine Journal ModuleId) : Prop where
  size : s.modules.size = base.modules.size
  text : ∀ m, (base.module m).kind.SameText (s.module m).kind
  noted : ∀ {m request n}, Entry.resolved m request n ∈ s.host →
    (plan.target m request).filter (·.index < base.modules.size) = some n

theorem Shows.of_modules (hm : s'.modules = s.modules)
    (hj : ∀ {m request n}, Entry.resolved m request n ∈ s'.host →
      Entry.resolved m request n ∈ s.host ∨
        (plan.target m request).filter (·.index < s.modules.size) = some n) :
    Machine.Stays (plan.Shows base) s s' := by
  have hmodule : ∀ m, s'.module m = s.module m :=
    fun m => by rw [Machine.module, hm, Machine.module]
  intro h
  refine ⟨⟨by rw [hm, h.size], fun m => by rw [hmodule]; exact h.text m, fun he => ?_⟩,
    fun m hh => ?_⟩
  · rcases hj he with he | he
    · exact h.noted he
    · rwa [h.size] at he
  · rwa [Machine.Has, hm]

theorem stays_answer (plan : Plan) (base : Machine Journal ModuleId) (m : ModuleId)
    (request : String) : Within (Machine.Stays (plan.Shows base)) (plan.answer m request) := by
  intro s r s' h
  rw [answer, Act.view_bind] at h
  cases hmade : (plan.target m request).filter (·.index < s.modules.size) with
  | some n =>
    simp only [hmade] at h
    cases h
    refine Shows.of_modules rfl fun he => ?_
    rcases List.mem_append.1 he with he | he
    · exact .inl he
    · cases List.mem_singleton.1 he
      exact .inr hmade
  | none =>
    simp only [hmade] at h
    cases h
    refine Shows.of_modules rfl fun he => ?_
    rcases List.mem_append.1 he with he | he
    · exact .inl he
    · exact absurd (List.mem_singleton.1 he) Entry.noConfusion

theorem stays_updateModule (plan : Plan) (base s : Machine Journal ModuleId) (m : ModuleId)
    {f : Module → Module} (hf : ∀ x : Module, x.kind.SameText (f x).kind) :
    Machine.Stays (plan.Shows base) s (s.updateModule m f) := by
  refine fun h => ⟨⟨(s.size_updateModule m f).trans h.size, fun n => ?_, h.noted⟩,
    fun n hn => by simpa using hn⟩
  by_cases hm : s.Has m
  · rw [Machine.module_updateModule s m n f hm]
    split
    · exact ⟨(hf _).1.trans (h.text n).1, (hf _).2.trans (h.text n).2⟩
    · exact h.text n
  · rw [Machine.updateModule_of_not_has f hm]
    exact h.text n

theorem serves (plan : Plan) (names : ModuleId → List String) (base : Machine Journal ModuleId)
    (depth : Nat) :
    (plan.graph names base).Serves (plan.Shows base) (plan.exporting names depth) := by
  have hc := Machine.Stays.composes (plan.Shows base)
  exact
    { toComposes := hc
      resolve := plan.stays_answer base
      exportedNames := fun _ => Within.pure hc _
      resolveExport := fun _ _ _ => Within.pure hc _
      keep := fun s m _ => plan.stays_updateModule base s m fun _ => ⟨rfl, rfl⟩
      record := fun h _ _ => (h.text _).1
      answers := fun {s m request n} h _ _ ht => by
        have ht' : (plan.target m request).filter (·.index < s.modules.size) = some n := by
          rw [h.size]
          exact ht
        refine ⟨s.setHost (s.host ++ [.resolved m request n]), ?_, ?_⟩
        · change plan.answer m request s = _
          rw [answer, Act.view_bind, ht']
          rfl
        · have hn : n.index < s.modules.size := by simpa using (Option.filter_eq_some_iff.1 ht').2
          exact hn
      refuses := fun {s m request} h _ _ ht => by
        have ht' : (plan.target m request).filter (·.index < s.modules.size) = none := by
          rw [h.size]
          exact ht
        have hrun : plan.answer m request s = refuse m request s := by
          rw [answer, Act.view_bind, ht']
        exact ⟨_, _, hrun.trans rfl⟩
      exports := fun _ _ _ _ => ⟨_, rfl⟩
      byName := fun _ _ => rfl }

theorem shows_self (plan : Plan) (h : base.host = []) : plan.Shows base base where
  size := rfl
  text _ := ⟨rfl, rfl⟩
  noted he := by rw [h] at he; cases he

end Plan

/-! ## A cycle and a diamond -/

namespace Entangled

/-- Module `0` exports everything of modules `1` and `2`, and `1` everything of `0` and `3`. Module
`2` takes `x` from `3`, which is a leaf. -/
def plan : Plan where
  target _ request :=
    some (if request = "0" then ⟨0⟩ else if request = "1" then ⟨1⟩ else
      if request = "2" then ⟨2⟩ else ⟨3⟩)
  body _ := .completes

def made (record : SourceRecord) : Module :=
  .new (.source record none (.new record.requested record.hasAwait)) none

def modules : Machine Journal ModuleId :=
  { Machine.initial [] with
    modules := #[
      made { (default : SourceRecord) with requested := ["1", "2"], starExports := ["1", "2"] },
      made { (default : SourceRecord) with requested := ["0", "3"], starExports := ["0", "3"] },
      made { (default : SourceRecord) with
        requested := ["3"], indirectExports := [⟨"x", "3", some "x"⟩] },
      .new (.leaf .unlinked) none] }

def names (_ : ModuleId) : List String := ["x"]

theorem target_made (m : ModuleId) (request : String) :
    ∃ n, plan.target m request = some n ∧ n.index < modules.modules.size := by
  refine ⟨_, rfl, ?_⟩
  split_ifs <;> decide

end Entangled

open Entangled in
/-- All paths lead to the one binding of the leaf. -/
theorem resolution_decides_reachability_entangled :
    (plan.graph names modules).bound < 9 ∧
    ∃ resolution s', (plan.exporting names 9).resolution ⟨0⟩ "x" modules =
        some (.ok resolution, s') ∧
      (resolution = none ↔ ∀ b, ¬(plan.graph names modules).Provides (⟨0⟩, "x") b) ∧
      (∀ n b, resolution = some (.found n b) ↔
        ∀ c, (plan.graph names modules).Provides (⟨0⟩, "x") c ↔ c = (n, b)) ∧
      (resolution = some .ambiguous ↔ ∃ b c, (plan.graph names modules).Provides (⟨0⟩, "x") b ∧
        (plan.graph names modules).Provides (⟨0⟩, "x") c ∧ b ≠ c) := by
  have hbound : (plan.graph names modules).bound < 9 := by decide
  refine ⟨hbound, ExportGraph.resolution_decides_reachability (plan.serves names modules 9)
    (fun m _ request => ?_) hbound (plan.shows_self rfl) (Plan.mem_graph.2 ?_) ?_ "x"⟩
  · obtain ⟨n, hn, hlt⟩ := target_made m request
    exact ⟨n, Plan.target_graph.2 ⟨hn, hlt⟩⟩
  · exact (by decide : 0 < 4)
  · exact (by decide : 0 < 4)

open Entangled in
example : ((plan.exporting names 9).resolution ⟨0⟩ "x" modules).map (·.1) =
    some (.ok (some (.found ⟨3⟩ (.name "x")))) := by
  rfl

end ModuleGraph
