import ModuleGraph.Proofs.Exports.Reachability
import ModuleGraph.Proofs.Exports.Records

/-! # Sound modules

A module is sound if all that it imports and exports from elsewhere can be resolved. A link looks up
each indirect export behind the module that it is taken from; this tells the same as looking it up
in the module itself. -/

namespace ModuleGraph.ExportGraph

open Relation

variable {σ κ : Type} {G : ExportGraph} {p q : ModuleId × String} {b c : ModuleId × BindingName}
variable {m n : ModuleId} {name imported request : String} {record : SourceRecord}
variable {e : IndirectExport} {s' : Machine σ κ}

def WellFormed (G : ExportGraph) : Prop :=
  ∀ m record, G.source m = some record → record.WellFormed

def Listed (G : ExportGraph) : Prop := ∀ m record, G.source m = some record → record.Listed

theorem WellFormed.listed (h : G.WellFormed) : G.Listed := fun m record hs => (h m record hs).listed

def Requests (G : ExportGraph) (m n : ModuleId) : Prop :=
  ∃ record, G.source m = some record ∧ ∃ request ∈ record.requested, G.target m request = some n

def Refused (G : ExportGraph) (m : ModuleId) : Prop :=
  ∃ record, G.source m = some record ∧ ∃ request ∈ record.requested, G.target m request = none

/-- Nothing below the module is refused. -/
def Clear (G : ExportGraph) (m : ModuleId) : Prop :=
  ∀ n, ReflTransGen G.Requests m n → ¬G.Refused n

theorem Clear.of_requests (h : G.Clear m) (hn : ReflTransGen G.Requests m n) : G.Clear n :=
  fun x hx => h x (hn.trans hx)

theorem mem_of_requests (h : ReflTransGen G.Requests m n) (hm : m ∈ G.modules) : n ∈ G.modules := by
  induction h with
  | refl => exact hm
  | tail _ hr ih =>
    obtain ⟨_, _, _, _, ht⟩ := hr
    exact G.closed ih ht

section Listed

variable (hlist : G.Listed)
include hlist

theorem Leads.requests (h : G.Leads p q) : G.Requests p.1 q.1 := by
  cases h with
  | indirect hs _ hi _ ht =>
    exact ⟨_, hs, _, (hlist _ _ hs).indirect _ (List.mem_of_find?_eq_some hi), ht⟩
  | star hs _ _ _ hr ht => exact ⟨_, hs, _, (hlist _ _ hs).stars _ hr, ht⟩

theorem requests_of_leads (h : ReflTransGen G.Leads p q) : ReflTransGen G.Requests p.1 q.1 :=
  h.lift Prod.fst fun _ _ hl => hl.requests hlist

theorem Yields.requests (h : G.Yields p b) : ReflTransGen G.Requests p.1 b.1 := by
  cases h with
  | own => exact .refl
  | «namespace» hs _ hi _ ht =>
    exact .single ⟨_, hs, _, (hlist _ _ hs).indirect _ (List.mem_of_find?_eq_some hi), ht⟩
  | leaf => exact .refl

theorem Provides.requests (h : G.Provides p b) : ReflTransGen G.Requests p.1 b.1 := by
  obtain ⟨q, hq, hb⟩ := h
  exact (requests_of_leads hlist hq).trans (hb.requests hlist)

theorem Blocked.refused (h : G.Blocked p) : G.Refused p.1 := by
  cases h with
  | indirect hs _ hi ht =>
    exact ⟨_, hs, _, (hlist _ _ hs).indirect _ (List.mem_of_find?_eq_some hi), ht⟩
  | star hs _ _ _ hr ht => exact ⟨_, hs, _, (hlist _ _ hs).stars _ hr, ht⟩

theorem Clear.not_blocked (h : G.Clear m) (hq : ReflTransGen G.Leads (m, name) q) :
    ¬G.Blocked q :=
  fun hb => h _ (requests_of_leads hlist hq) (hb.refused hlist)

end Listed

/-! ## One binding -/

def Binds (G : ExportGraph) (p : ModuleId × String) (b : ModuleId × BindingName) : Prop :=
  ∀ c, G.Provides p c ↔ c = b

theorem Binds.provides (h : G.Binds p b) : G.Provides p b := (h b).2 rfl

/-- A resolution finds a binding only if it is the one that the pair provides. -/
theorem Tells.binds (h : G.Tells s' p (.ok (some (.found b.1 b.2)))) :
    G.Binds p b ∧ s'.Has b.1 := by
  obtain ⟨n, b⟩ := b
  generalize hr : (Except.ok (some (.found n b)) : Except Value (Option Resolution)) = r at h
  cases h with
  | threw => cases hr
  | ambiguous => cases hr
  | @settled found hfound hh =>
    cases found with
    | none => cases hr
    | some c =>
      cases hr
      refine ⟨fun d => ?_, hh c rfl⟩
      rw [← hfound, Option.some.injEq, eq_comm]

/-- A resolution that meets no request that is refused finds the one binding. -/
theorem Tells.of_binds {r : Except Value (Option Resolution)} (h : G.Tells s' p r)
    (hclear : ∀ q, ReflTransGen G.Leads p q → ¬G.Blocked q) (hb : G.Binds p b) :
    r = .ok (some (.found b.1 b.2)) := by
  cases h with
  | threw hq hblocked => exact absurd hblocked (hclear _ hq)
  | ambiguous hc hd hne => exact absurd (((hb _).1 hc).trans ((hb _).1 hd).symm) hne
  | settled hfound => rw [(hfound b).2 hb.provides, Option.map_some]

/-! ## Indirect exports -/

/-- An indirect export is taken from elsewhere: the request has an answer, and there is one binding
of the imported name behind it. -/
def Takes (G : ExportGraph) (m : ModuleId) (request : String) (importName : Option String) : Prop :=
  ∃ n, G.target m request = some n ∧ ∀ imported, importName = some imported →
    ∃ b, G.Binds (n, imported) b

theorem not_takes {importName : Option String} (ht : G.target m request = none) :
    ¬G.Takes m request importName := by
  rintro ⟨n, hn, -⟩
  rw [ht] at hn
  cases hn

/-- An indirect export resolves in the module itself just if it resolves where it is taken from. -/
theorem takes_iff (hwf : record.WellFormed) (hs : G.source m = some record)
    (he : e ∈ record.indirectExports) {n : ModuleId} (ht : G.target m e.request = some n) :
    G.Takes m e.request e.importName ↔ ∃ b, G.Binds (m, e.exportName) b := by
  obtain ⟨ho, hi⟩ := hwf.indirectExport?_eq he
  have hy := fun b => yields_indirect_iff (b := b) hs ho hi ht
  have hl := fun q => leads_indirect_iff (q := q) hs ho hi ht
  cases himp : e.importName with
  | none =>
    simp only [himp, true_and, reduceCtorEq, false_and, exists_false] at hy hl
    refine ⟨fun _ => ⟨(n, .namespace), fun c => ?_⟩, fun _ => ⟨n, ht, fun _ h => nomatch h⟩⟩
    rw [provides_iff, hy c]
    simp [hl]
  | some imported =>
    simp only [himp, reduceCtorEq, false_and, Option.some.injEq, exists_eq_left'] at hy hl
    have hprovides : ∀ c, G.Provides (m, e.exportName) c ↔ G.Provides (n, imported) c := by
      intro c
      rw [provides_iff]
      simp [hy, hl]
    simp [Takes, ht, Binds, hprovides]

/-- All requests of a module have answers, and all that it takes from elsewhere resolves. -/
def Sound (G : ExportGraph) (m : ModuleId) : Prop :=
  ∀ record, G.source m = some record →
    (∀ request ∈ record.requested, ∃ n, G.target m request = some n) ∧
    (∀ e ∈ record.indirectExports, G.Takes m e.request e.importName) ∧
    ∀ i ∈ record.imports, G.Takes m i.request i.importName

/-- Nothing is refused below a module if all modules below it are sound. -/
theorem clear_of_sound (h : ∀ n, ReflTransGen G.Requests m n → G.Sound n) : G.Clear m := by
  rintro n hn ⟨record, hs, request, hr, ht⟩
  obtain ⟨x, hx⟩ := (h n hn record hs).1 request hr
  rw [ht] at hx
  cases hx

end ModuleGraph.ExportGraph
