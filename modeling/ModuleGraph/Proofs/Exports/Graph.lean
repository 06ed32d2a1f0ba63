import Mathlib.Data.Finset.Prod
import Mathlib.Data.Finset.Union
import Mathlib.Tactic.Common
import ModuleGraph.Proofs.Exports.Records
import ModuleGraph.Proofs.Fields
import ModuleGraph.Proofs.Lookups

/-! # Graphs of exports

Which binding an exported name stands for depends on the texts of the modules and on what their
requests mean, not on the machine. A graph holds just this. A pair of a module and a name either
yields a binding itself or leads to other pairs; a name provides the bindings that it leads to. -/

namespace ModuleGraph

open Relation

variable {σ κ : Type}

/-- A finite graph of modules whose requests have fixed answers. -/
structure ExportGraph where
  modules : Finset ModuleId
  /-- The record of a source text module; the other modules have none. -/
  source : ModuleId → Option SourceRecord
  /-- The names that a module without a record exports. -/
  names : ModuleId → List String
  /-- The module that a request means. A request without one is always refused. -/
  target : ModuleId → String → Option ModuleId
  closed : ∀ {m request n}, m ∈ modules → target m request = some n → n ∈ modules

namespace ExportGraph

/-- The binding that a pair has without asking another module. -/
inductive Yields (G : ExportGraph) : ModuleId × String → ModuleId × BindingName → Prop
  | own {m name record e} : G.source m = some record → record.ownExport? name = some e →
      Yields G (m, name) (m, .name e.localName)
  | namespace {m name record e n} : G.source m = some record → record.ownExport? name = none →
      record.indirectExport? name = some e → e.importName = none →
      G.target m e.request = some n → Yields G (m, name) (n, .namespace)
  | leaf {m name} : G.source m = none → name ∈ G.names m → Yields G (m, name) (m, .name name)

/-- The pairs that are asked for the binding of a pair. -/
inductive Leads (G : ExportGraph) : ModuleId × String → ModuleId × String → Prop
  | indirect {m name record e imported n} : G.source m = some record →
      record.ownExport? name = none → record.indirectExport? name = some e →
      e.importName = some imported → G.target m e.request = some n →
      Leads G (m, name) (n, imported)
  | star {m name record request n} : G.source m = some record → record.ownExport? name = none →
      record.indirectExport? name = none → name ≠ "default" → request ∈ record.starExports →
      G.target m request = some n → Leads G (m, name) (n, name)

/-- The binding of a pair takes a request that is refused. -/
inductive Blocked (G : ExportGraph) : ModuleId × String → Prop
  | indirect {m name record e} : G.source m = some record → record.ownExport? name = none →
      record.indirectExport? name = some e → G.target m e.request = none → Blocked G (m, name)
  | star {m name record request} : G.source m = some record → record.ownExport? name = none →
      record.indirectExport? name = none → name ≠ "default" → request ∈ record.starExports →
      G.target m request = none → Blocked G (m, name)

def Provides (G : ExportGraph) (p : ModuleId × String) (b : ModuleId × BindingName) : Prop :=
  ∃ q, ReflTransGen G.Leads p q ∧ G.Yields q b

variable {G : ExportGraph} {p q : ModuleId × String} {b : ModuleId × BindingName} {m n : ModuleId}
variable {name imported : String} {record : SourceRecord} {own : LocalExport} {e : IndirectExport}

theorem Leads.mem (h : G.Leads p q) (hp : p.1 ∈ G.modules) : q.1 ∈ G.modules := by
  cases h with
  | indirect _ _ _ _ ht => exact G.closed hp ht
  | star _ _ _ _ _ ht => exact G.closed hp ht

theorem mem_of_leads (h : ReflTransGen G.Leads p q) (hp : p.1 ∈ G.modules) :
    q.1 ∈ G.modules := by
  induction h with
  | refl => exact hp
  | tail _ hl ih => exact hl.mem ih

/-- A pair provides what it yields and what the pairs that it leads to provide. -/
theorem provides_iff : G.Provides p b ↔ G.Yields p b ∨ ∃ q, G.Leads p q ∧ G.Provides q b := by
  constructor
  · rintro ⟨q, hq, hb⟩
    obtain rfl | ⟨x, hx, hq⟩ := ReflTransGen.cases_head hq
    · exact .inl hb
    · exact .inr ⟨x, hx, q, hq, hb⟩
  · rintro (hb | ⟨x, hx, q, hq, hb⟩)
    · exact ⟨p, .refl, hb⟩
    · exact ⟨q, .head hx hq, hb⟩

/-! ## What each kind of pair yields and leads to -/

theorem yields_own_iff (hs : G.source m = some record) (ho : record.ownExport? name = some own) :
    G.Yields (m, name) b ↔ b = (m, .name own.localName) := by
  constructor
  · intro h
    cases h <;> simp_all
  · rintro rfl
    exact .own hs ho

theorem not_leads_of_own (hs : G.source m = some record) (ho : record.ownExport? name = some own) :
    ¬G.Leads (m, name) q := by
  intro h
  cases h <;> simp_all

theorem yields_leaf_iff (hs : G.source m = none) :
    G.Yields (m, name) b ↔ name ∈ G.names m ∧ b = (m, .name name) := by
  constructor
  · intro h
    cases h <;> simp_all
  · rintro ⟨hn, rfl⟩
    exact .leaf hs hn

theorem not_leads_of_leaf (hs : G.source m = none) : ¬G.Leads (m, name) q := by
  intro h
  cases h <;> simp_all

theorem yields_indirect_iff (hs : G.source m = some record)
    (ho : record.ownExport? name = none) (hi : record.indirectExport? name = some e)
    (ht : G.target m e.request = some n) :
    G.Yields (m, name) b ↔ e.importName = none ∧ b = (n, .namespace) := by
  constructor
  · intro h
    cases h <;> simp_all
  · rintro ⟨hn, rfl⟩
    exact .namespace hs ho hi hn ht

theorem leads_indirect_iff (hs : G.source m = some record)
    (ho : record.ownExport? name = none) (hi : record.indirectExport? name = some e)
    (ht : G.target m e.request = some n) :
    G.Leads (m, name) q ↔ ∃ imported, e.importName = some imported ∧ q = (n, imported) := by
  constructor
  · intro h
    cases h <;> simp_all
  · rintro ⟨imported, hn, rfl⟩
    exact .indirect hs ho hi hn ht

theorem not_yields_star (hs : G.source m = some record) (ho : record.ownExport? name = none)
    (hi : record.indirectExport? name = none) : ¬G.Yields (m, name) b := by
  intro h
  cases h <;> simp_all

theorem leads_star_iff (hs : G.source m = some record) (ho : record.ownExport? name = none)
    (hi : record.indirectExport? name = none) :
    G.Leads (m, name) q ↔ name ≠ "default" ∧
      ∃ request ∈ record.starExports, ∃ n, G.target m request = some n ∧ q = (n, name) := by
  constructor
  · intro h
    cases h with
    | indirect hs' _ hi' => simp_all
    | star hs' _ _ hd hr ht =>
      obtain rfl : record = _ := Option.some.inj (hs.symm.trans hs')
      exact ⟨hd, _, hr, _, ht, rfl⟩
  · rintro ⟨hd, request, hr, n, ht, rfl⟩
    exact .star hs ho hi hd hr ht

/-! ## How many pairs there are -/

def importedNames (G : ExportGraph) (m : ModuleId) : List String :=
  match G.source m with
  | some record => record.indirectExports.filterMap (·.importName)
  | none => []

def pairs (G : ExportGraph) (name : String) : Finset (ModuleId × String) :=
  G.modules ×ˢ insert name (G.modules.biUnion fun m => (G.importedNames m).toFinset)

/-- A bound on the number of pairs that a name can lead to, whichever name it is. -/
def bound (G : ExportGraph) : Nat :=
  G.modules.card * ((G.modules.biUnion fun m => (G.importedNames m).toFinset).card + 1)

theorem card_pairs_le (G : ExportGraph) (name : String) : (G.pairs name).card ≤ G.bound := by
  rw [pairs, Finset.card_product, bound]
  exact Nat.mul_le_mul_left _ (Finset.card_insert_le _ _)

theorem card_modules_le (G : ExportGraph) : G.modules.card ≤ G.bound :=
  Nat.le_mul_of_pos_right _ (Nat.succ_pos _)

theorem mem_pairs_self (hm : m ∈ G.modules) : (m, name) ∈ G.pairs name :=
  Finset.mem_product.2 ⟨hm, Finset.mem_insert_self _ _⟩

theorem Leads.mem_pairs (h : G.Leads p q) (hp : p ∈ G.pairs name) : q ∈ G.pairs name := by
  obtain ⟨hm, hname⟩ := Finset.mem_product.1 hp
  refine Finset.mem_product.2 ⟨h.mem hm, ?_⟩
  cases h with
  | @indirect m _ record e imported n hs _ hi hn =>
    refine Finset.mem_insert_of_mem (Finset.mem_biUnion.2 ⟨m, hm, List.mem_toFinset.2 ?_⟩)
    rw [importedNames, hs]
    exact List.mem_filterMap.2 ⟨e, List.mem_of_find?_eq_some hi, hn⟩
  | star => exact hname

end ExportGraph

/-! ## Hosts that serve a graph -/

/-- Resolves a name as a module does that says nothing else about it: each exported name is a
binding of the same name. -/
def Host.resolveOwn (host : Host σ κ) (m : ModuleId) (name : String) (visited : Visited) :
    Act σ κ (Option Resolution × Visited) := do
  let names ← Act.ofRun (host.exportedNames m)
  pure (ownResolution names m name, visited)

/-- What the hooks of a host leave alone: the properties of all machines that can occur, and the
modules that exist. -/
def Machine.Stays (world : Machine σ κ → Prop) (s s' : Machine σ κ) : Prop :=
  world s → world s' ∧ ∀ m, s.Has m → s'.Has m

theorem Machine.Stays.composes (world : Machine σ κ → Prop) : Composes (Machine.Stays world) where
  refl _ hs := ⟨hs, fun _ => id⟩
  trans h h' hs :=
    have hs₁ := h hs
    have hs₂ := h' hs₁.1
    ⟨hs₂.1, fun m hm => hs₂.2 m (hs₁.2 m hm)⟩

/-- A host that serves a graph, in all machines that can occur: the modules of the graph that exist
are as the graph says, and the requests are answered and refused as it says. A module without a
record always exports the same names, and resolves them in the simplest way. -/
structure ExportGraph.Serves (G : ExportGraph) (world : Machine σ κ → Prop) (host : Host σ κ) : Prop
    extends LooksUp host (Machine.Stays world) where
  record : ∀ {s m}, world s → m ∈ G.modules → s.Has m → s.record? m = G.source m
  answers : ∀ {s m request n}, world s → m ∈ G.modules → s.Has m → G.target m request = some n →
    ∃ s', host.resolve (.module m) request s = some (.ok n, s') ∧ s'.Has n
  refuses : ∀ {s m request}, world s → m ∈ G.modules → s.Has m → G.target m request = none →
    ∃ e s', host.resolve (.module m) request s = some (.error e, s')
  exports : ∀ {s m}, world s → m ∈ G.modules → s.Has m → G.source m = none →
    ∃ s', host.exportedNames m s = some (G.names m, s')
  byName : ∀ {m}, m ∈ G.modules → G.source m = none → host.resolveExport m = host.resolveOwn m

end ModuleGraph
