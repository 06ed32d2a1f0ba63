import Mathlib.Data.Finset.Card
import ModuleGraph.Proofs.Exports.Graph

/-! # The search for a binding

A search asks each pair once and sums up what the pairs that it asked yield. A pair that was asked
before counts as nothing, even if it yields a binding: that binding belongs to a search which is
still going on, or to one whose result is joined with this one. -/

namespace ModuleGraph.ExportGraph

open Relation

variable {σ κ : Type} {G : ExportGraph} {p q : ModuleId × String} {b c : ModuleId × BindingName}
variable {visited visited₁ visited₂ : Visited} {fresh fresh₁ : Set (ModuleId × String)}
variable {found found₁ : Option (ModuleId × BindingName)} {s s₁ s' : Machine σ κ}

/-- A search for `p` asks the pairs of `fresh`. They are closed, up to what was visited before. -/
structure Covers (G : ExportGraph) (p : ModuleId × String) (visited : Visited)
    (fresh : Set (ModuleId × String)) (visited₁ : Visited) : Prop where
  start : p ∈ visited ∨ p ∈ fresh
  grows : ∀ q ∈ visited, q ∈ visited₁
  known : ∀ q ∈ visited₁, q ∈ visited ∨ q ∈ fresh
  reach : ∀ q ∈ fresh, ReflTransGen G.Leads p q
  closed : ∀ q ∈ fresh, ∀ x, G.Leads q x → x ∈ visited ∨ x ∈ fresh

/-- The one binding that some of the pairs yield, or nothing if none of them does. -/
def Sums (G : ExportGraph) (fresh : Set (ModuleId × String))
    (found : Option (ModuleId × BindingName)) : Prop :=
  ∀ b, found = some b ↔ ∃ q ∈ fresh, G.Yields q b

/-- How a search for `p` ends. It throws only at a request that is refused. -/
inductive Ends (G : ExportGraph) (s' : Machine σ κ) (p : ModuleId × String) (visited : Visited) :
    Except Value (Option Resolution × Visited) → Prop
  | threw {e : Value} {q : ModuleId × String} : ReflTransGen G.Leads p q → G.Blocked q →
      Ends G s' p visited (.error e)
  | settled (fresh : Set (ModuleId × String)) (found : Option (ModuleId × BindingName))
      {visited₁ : Visited} : G.Covers p visited fresh visited₁ → G.Sums fresh found →
      (∀ b, found = some b → s'.Has b.1) →
      Ends G s' p visited (.ok (found.map fun (m, b) => .found m b, visited₁))
  | ambiguous {b c : ModuleId × BindingName} {visited₁ : Visited} : G.Provides p b →
      G.Provides p c → b ≠ c → Ends G s' p visited (.ok (some .ambiguous, visited₁))

theorem Provides.head (hl : G.Leads p q) (hb : G.Provides q b) : G.Provides p b :=
  provides_iff.2 (.inr ⟨q, hl, hb⟩)

theorem Ends.alone (found : Option (ModuleId × BindingName)) (hp : ∀ q, ¬G.Leads p q)
    (hv : visited₁ = visited ∨ visited₁ = p :: visited)
    (hy : ∀ b, found = some b ↔ G.Yields p b) (hh : ∀ b, found = some b → s'.Has b.1) :
    G.Ends s' p visited (.ok (found.map fun (m, b) => .found m b, visited₁)) := by
  refine .settled {p} found ⟨.inr rfl, fun q hq => ?_, fun q hq => ?_, fun q hq => ?_,
    fun q hq x hx => ?_⟩ (fun b => ?_) hh
  · rcases hv with rfl | rfl
    · exact hq
    · exact List.mem_cons_of_mem _ hq
  · rcases hv with rfl | rfl
    · exact .inl hq
    · exact (List.mem_cons.1 hq).symm
  · rw [Set.mem_singleton_iff.1 hq]
  · rw [Set.mem_singleton_iff.1 hq] at hx
    exact absurd hx (hp x)
  · rw [hy b]
    simp

/-- A pair that yields nothing and leads to one other pair. -/
theorem Ends.through {r : Except Value (Option Resolution × Visited)}
    (h : G.Ends s' q (p :: visited) r) (hl : ∀ x, G.Leads p x ↔ x = q)
    (hn : ∀ b, ¬G.Yields p b) : G.Ends s' p visited r := by
  have hpq : G.Leads p q := (hl q).2 rfl
  cases h with
  | threw hx hb => exact .threw (.head hpq hx) hb
  | ambiguous hb hc hne => exact .ambiguous (hb.head hpq) (hc.head hpq) hne
  | @settled fresh found visited₁ hc hsum hh =>
    have hmove : ∀ x, x ∈ p :: visited ∨ x ∈ fresh → x ∈ visited ∨ x ∈ insert p fresh := by
      rintro x (hx | hx)
      · rcases List.mem_cons.1 hx with rfl | hx
        · exact .inr (Set.mem_insert _ _)
        · exact .inl hx
      · exact .inr (Set.mem_insert_of_mem _ hx)
    refine .settled (insert p fresh) found ⟨.inr (Set.mem_insert _ _), fun x hx => ?_,
      fun x hx => hmove x (hc.known x hx), fun x hx => ?_, fun x hx y hy => ?_⟩ (fun b => ?_) hh
    · exact hc.grows x (List.mem_cons_of_mem _ hx)
    · rcases hx with rfl | hx
      · exact .refl
      · exact .head hpq (hc.reach x hx)
    · rcases hx with rfl | hx
      · rw [(hl y).1 hy]
        exact hmove q hc.start
      · exact hmove y (hc.closed x hx y hy)
    · rw [hsum b]
      constructor
      · rintro ⟨x, hx, hb⟩
        exact ⟨x, Set.mem_insert_of_mem _ hx, hb⟩
      · rintro ⟨x, rfl | hx, hb⟩
        · exact absurd hb (hn b)
        · exact ⟨x, hx, hb⟩

/-! ## Joining what the stars give -/

structure Joining (G : ExportGraph) (s : Machine σ κ) (p : ModuleId × String) (visited : Visited)
    (handled : List String) (fresh : Set (ModuleId × String))
    (found : Option (ModuleId × BindingName)) (visited₁ : Visited) : Prop where
  mem : p ∈ fresh
  grows : ∀ q ∈ visited, q ∈ visited₁
  known : ∀ q ∈ visited₁, q ∈ visited ∨ q ∈ fresh
  reach : ∀ q ∈ fresh, ReflTransGen G.Leads p q
  closed : ∀ q ∈ fresh, q ≠ p → ∀ x, G.Leads q x → x ∈ visited ∨ x ∈ fresh
  answered : ∀ request ∈ handled, ∀ n, G.target p.1 request = some n →
    (n, p.2) ∈ visited ∨ (n, p.2) ∈ fresh
  sums : G.Sums fresh found
  has : ∀ b, found = some b → s.Has b.1

namespace Joining

variable {handled : List String} {request : String} {n : ModuleId}

theorem first (hy : ∀ b, ¬G.Yields p b) :
    G.Joining s p visited [] {p} none (p :: visited) where
  mem := rfl
  grows _ hq := List.mem_cons_of_mem _ hq
  known _ hq := (List.mem_cons.1 hq).symm
  reach _ hq := by rw [Set.mem_singleton_iff.1 hq]
  closed _ hq hne := absurd (Set.mem_singleton_iff.1 hq) hne
  answered _ hr := nomatch hr
  sums b := by simpa using hy b
  has _ hb := nomatch hb

theorem provides (h : G.Joining s p visited handled fresh found visited₁) (hb : found = some b) :
    G.Provides p b := by
  obtain ⟨q, hq, hy⟩ := (h.sums b).1 hb
  exact ⟨q, h.reach q hq, hy⟩

/-- One more item whose search has settled, when the bindings fit together. -/
theorem join (h : G.Joining s p visited handled fresh found visited₁)
    (found₂ : Option (ModuleId × BindingName)) (hl : G.Leads p (n, p.2))
    (ht : G.target p.1 request = some n)
    (hc : G.Covers (n, p.2) visited₁ fresh₁ visited₂) (hsum : G.Sums fresh₁ found₁)
    (hgrow : ∀ m, s.Has m → s₁.Has m) (hh : ∀ b, found₁ = some b → s₁.Has b.1)
    (hmerge : ∀ b, found₂ = some b ↔ found = some b ∨ found₁ = some b) :
    G.Joining s₁ p visited (handled ++ [request]) (fresh ∪ fresh₁) found₂ visited₂ := by
  have hmove : ∀ x, x ∈ visited₁ ∨ x ∈ fresh₁ → x ∈ visited ∨ x ∈ fresh ∪ fresh₁ := by
    rintro x (hx | hx)
    · exact (h.known x hx).imp_right .inl
    · exact .inr (.inr hx)
  refine ⟨.inl h.mem, fun q hq => hc.grows q (h.grows q hq), fun q hq => hmove q (hc.known q hq),
    fun q hq => ?_, fun q hq hne x hx => ?_, fun r hr n' hn => ?_, fun b => ?_, fun b hb => ?_⟩
  · rcases hq with hq | hq
    · exact h.reach q hq
    · exact .head hl (hc.reach q hq)
  · rcases hq with hq | hq
    · exact (h.closed q hq hne x hx).imp_right .inl
    · exact hmove x (hc.closed q hq x hx)
  · rcases List.mem_append.1 hr with hr | hr
    · exact (h.answered r hr n' hn).imp_right .inl
    · rw [List.mem_singleton.1 hr, ht] at hn
      cases hn
      exact hmove _ hc.start
  · rw [hmerge, h.sums b, hsum b]
    constructor
    · rintro (⟨q, hq, hb⟩ | ⟨q, hq, hb⟩)
      · exact ⟨q, .inl hq, hb⟩
      · exact ⟨q, .inr hq, hb⟩
    · rintro ⟨q, hq | hq, hb⟩
      · exact .inl ⟨q, hq, hb⟩
      · exact .inr ⟨q, hq, hb⟩
  · rcases (hmerge b).1 hb with hb | hb
    · exact hgrow _ (h.has b hb)
    · exact hh b hb

theorem ends (h : G.Joining s p visited handled fresh found visited₁)
    (hp : ∀ x, G.Leads p x → ∃ request ∈ handled, ∃ n, G.target p.1 request = some n ∧
      x = (n, p.2)) :
    G.Ends s p visited (.ok (found.map fun (m, b) => .found m b, visited₁)) := by
  refine .settled fresh found ⟨.inr h.mem, h.grows, h.known, h.reach, fun q hq x hx => ?_⟩
    h.sums h.has
  by_cases hne : q = p
  · obtain ⟨r, hr, n, hn, rfl⟩ := hp x (hne ▸ hx)
    exact h.answered r hr n hn
  · exact h.closed q hq hne x hx

end Joining

/-! ## The whole search -/

def unasked {α : Type} [DecidableEq α] (all : Finset α) (visited : List α) : Finset α :=
  all.filter (· ∉ visited)

section Unasked

variable {α : Type} [DecidableEq α] {x : α} {visited visited₁ : List α} (all : Finset α)

theorem card_unasked_le (h : ∀ y ∈ visited, y ∈ visited₁) :
    (unasked all visited₁).card ≤ (unasked all visited).card :=
  Finset.card_le_card (Finset.monotone_filter_right _ fun y _ hy hv => hy (h y hv))

theorem card_unasked_lt (hx : x ∈ all) (hv : x ∉ visited) (hx' : x ∈ visited₁)
    (h : ∀ y ∈ visited, y ∈ visited₁) :
    (unasked all visited₁).card < (unasked all visited).card := by
  refine Finset.card_lt_card (Finset.ssubset_iff_of_subset ?_ |>.2 ⟨x, ?_, ?_⟩)
  · exact Finset.monotone_filter_right _ fun y _ hy hv => hy (h y hv)
  · exact Finset.mem_filter.2 ⟨hx, hv⟩
  · exact fun hx => (Finset.mem_filter.1 hx).2 hx'

end Unasked

variable {world : Machine σ κ → Prop} {host : Host σ κ} {start name : String} {m : ModuleId}
variable {depth : Nat}

/-- Searches of this depth end if it exceeds the number of pairs that are left. -/
def Searches (G : ExportGraph) (world : Machine σ κ → Prop) (host : Host σ κ) (start : String)
    (depth : Nat) : Prop :=
  ∀ m name visited s, world s → m ∈ G.modules → s.Has m → (m, name) ∈ G.pairs start →
    (unasked (G.pairs start) visited).card < depth →
      ∃ r s', resolveExport host depth m name visited s = some (r, s') ∧
        G.Ends s' (m, name) visited r

theorem searchStar_ends (h : G.Serves world host) (ih : G.Searches world host start depth)
    (hw : world s) (hm : m ∈ G.modules) (hh : s.Has m) {request : String} {n : ModuleId}
    (ht : G.target m request = some n) (hp : (n, name) ∈ G.pairs start)
    (hcard : (unasked (G.pairs start) visited).card < depth) :
    ∃ r s', (do
        let target ← host.resolve (.module m) request
        resolveExport host depth target name visited : Act σ κ _) s = some (r, s') ∧
      G.Ends s' (n, name) visited r ∧ world s' ∧ ∀ x, s.Has x → s'.Has x := by
  obtain ⟨s₁, hrun, hn⟩ := h.answers hw hm hh ht
  obtain ⟨hw₁, hgrow⟩ := h.resolve m request _ _ _ hrun hw
  obtain ⟨r, s', hrun', hends⟩ := ih n name visited s₁ hw₁ (G.closed hm ht) hn hp hcard
  obtain ⟨hw', hgrow'⟩ := h.asks.resolved depth n name visited _ _ _ hrun' hw₁
  exact ⟨r, s', throwing_bind.2 (.inl ⟨n, s₁, hrun, hrun'⟩), hends, hw',
    fun x hx => hgrow' x (hgrow x hx)⟩

theorem joinStars_ends (h : G.Serves world host) (ih : G.Searches world host start depth)
    {record : SourceRecord} (hs : G.source m = some record)
    (ho : record.ownExport? name = none) (hi : record.indirectExport? name = none)
    (hd : name ≠ "default") (hm : m ∈ G.modules) (hp : (m, name) ∈ G.pairs start)
    (rest : List String) :
    ∀ handled fresh found visited₁ s, handled ++ rest = record.starExports → world s → s.Has m →
      (unasked (G.pairs start) visited₁).card < depth →
      G.Joining s (m, name) visited handled fresh found visited₁ →
        ∃ r s', joinStars (fun request visited => do
            let target ← host.resolve (.module m) request
            resolveExport host depth target name visited) rest found visited₁ s = some (r, s') ∧
          G.Ends s' (m, name) visited r := by
  induction rest with
  | nil =>
    intro handled fresh found visited₁ s he hw hh hcard hj
    refine ⟨_, s, rfl, hj.ends fun x hx => ?_⟩
    rw [List.append_nil] at he
    exact he ▸ ((leads_star_iff hs ho hi).1 hx).2
  | cons request rest ihr =>
    intro handled fresh found visited₁ s he hw hh hcard hj
    have hr : request ∈ record.starExports := he ▸ List.mem_append_right _ (List.mem_cons_self ..)
    have he' : (handled ++ [request]) ++ rest = record.starExports := by
      rwa [List.append_assoc]
    cases ht : G.target m request with
    | none =>
      obtain ⟨e, s₁, hrun⟩ := h.refuses hw hm hh ht
      refine ⟨.error e, s₁, ?_, .threw .refl (.star hs ho hi hd hr ht)⟩
      exact throwing_bind.2 (.inr ⟨e, throwing_bind.2 (.inr ⟨e, hrun, rfl⟩), rfl⟩)
    | some n =>
      have hl : G.Leads (m, name) (n, name) := .star hs ho hi hd hr ht
      obtain ⟨r, s₁, hrun, hends, hw₁, hgrow⟩ :=
        searchStar_ends h ih hw hm hh ht (hl.mem_pairs hp) hcard
      cases hends with
      | threw hx hb => exact ⟨_, s₁, throwing_bind.2 (.inr ⟨_, hrun, rfl⟩), .threw (.head hl hx) hb⟩
      | ambiguous hb hc hne =>
        refine ⟨_, s₁, throwing_bind.2 (.inl ⟨_, s₁, hrun, rfl⟩), ?_⟩
        exact .ambiguous (hb.head hl) (hc.head hl) hne
      | @settled fresh₁ found₁ visited₂ hc hsum hhas =>
        have hcard' := (card_unasked_le (G.pairs start) hc.grows).trans_lt hcard
        have hjoin := fun found₂ => hj.join found₂ hl ht hc hsum hgrow hhas
        cases found₁ with
        | none =>
          obtain ⟨r, s', hrun', hends⟩ := ihr _ _ _ _ s₁ he' hw₁ (hgrow m hh) hcard'
            (hjoin found fun b => by simp)
          exact ⟨r, s', throwing_bind.2 (.inl ⟨_, s₁, hrun, hrun'⟩), hends⟩
        | some b =>
          cases found with
          | none =>
            obtain ⟨r, s', hrun', hends⟩ := ihr _ _ _ _ s₁ he' hw₁ (hgrow m hh) hcard'
              (hjoin (some b) fun b => by simp)
            exact ⟨r, s', throwing_bind.2 (.inl ⟨_, s₁, hrun, hrun'⟩), hends⟩
          | some c =>
            by_cases hbc : c = b
            · obtain ⟨r, s', hrun', hends⟩ := ihr _ _ _ _ s₁ he' hw₁ (hgrow m hh) hcard'
                (hjoin (some c) fun b => by simp [hbc])
              refine ⟨r, s', throwing_bind.2 (.inl ⟨_, s₁, hrun, ?_⟩), hends⟩
              exact (congrFun (if_pos hbc) s₁).trans hrun'
            · obtain ⟨q, hq, hb⟩ := (hsum b).1 rfl
              refine ⟨_, s₁, throwing_bind.2 (.inl ⟨_, s₁, hrun, congrFun (if_neg hbc) s₁⟩), ?_⟩
              exact .ambiguous (hj.provides rfl) (Provides.head hl ⟨q, hc.reach q hq, hb⟩) hbc

theorem searchLeaf_ends (h : G.Serves world host) (hs : G.source m = none) (hw : world s)
    (hm : m ∈ G.modules) (hh : s.Has m) :
    ∃ r s', host.resolveExport m name visited s = some (r, s') ∧
      G.Ends s' (m, name) visited r := by
  obtain ⟨s', hrun⟩ := h.exports hw hm hh hs
  have hnames := Act.ofRun_eq_some.2 ⟨_, rfl, hrun⟩
  have hgrow := (h.exportedNames m _ _ _ hnames hw).2
  refine ⟨_, s', ?_, Ends.alone (if (G.names m).contains name then
    some (m, .name name) else none) (fun q => not_leads_of_leaf hs) (.inl rfl) (fun b => ?_)
    fun b hb => ?_⟩
  · rw [h.byName hm hs]
    refine throwing_bind.2 (.inl ⟨_, s', hnames, ?_⟩)
    rw [ownResolution]
    split <;> rfl
  · rw [yields_leaf_iff hs]
    split <;> simp_all [eq_comm]
  · split at hb <;> cases hb
    exact hgrow m hh

theorem searchIndirect_ends (h : G.Serves world host) (ih : G.Searches world host start depth)
    {record : SourceRecord} {e : IndirectExport} (hs : G.source m = some record)
    (ho : record.ownExport? name = none) (hi : record.indirectExport? name = some e)
    (hw : world s) (hm : m ∈ G.modules) (hh : s.Has m) (hp : (m, name) ∈ G.pairs start)
    (hcard : (unasked (G.pairs start) ((m, name) :: visited)).card < depth) :
    ∃ r s', (do
        let target ← host.resolve (.module m) e.request
        match e.importName with
        | none => pure (some (.found target .namespace), (m, name) :: visited)
        | some imported => resolveExport host depth target imported ((m, name) :: visited) :
          Act σ κ _) s = some (r, s') ∧ G.Ends s' (m, name) visited r := by
  cases ht : G.target m e.request with
  | none =>
    obtain ⟨e, s₁, hrun⟩ := h.refuses hw hm hh ht
    exact ⟨.error e, s₁, throwing_bind.2 (.inr ⟨e, hrun, rfl⟩),
      .threw .refl (.indirect hs ho hi ht)⟩
  | some n =>
    obtain ⟨s₁, hrun, hn⟩ := h.answers hw hm hh ht
    have hy := fun b => yields_indirect_iff (b := b) hs ho hi ht
    have hl := fun q => leads_indirect_iff (q := q) hs ho hi ht
    cases himp : e.importName with
    | none =>
      simp only [himp, true_and, reduceCtorEq, false_and, exists_false] at hy hl
      refine ⟨_, s₁, throwing_bind.2 (.inl ⟨n, s₁, hrun, rfl⟩), ?_⟩
      exact Ends.alone (some (n, .namespace)) (fun q => (hl q).1) (.inr rfl)
        (fun b => by rw [hy b, Option.some.injEq, eq_comm]) fun b hb => by cases hb; exact hn
    | some imported =>
      simp only [himp, reduceCtorEq, false_and, iff_false, Option.some.injEq,
        exists_eq_left'] at hy hl
      have hw₁ := (h.resolve m e.request _ _ _ hrun hw).1
      obtain ⟨r, s', hrun', hends⟩ := ih n imported ((m, name) :: visited) s₁ hw₁
        (G.closed hm ht) hn (((hl _).2 rfl).mem_pairs hp) hcard
      exact ⟨r, s', throwing_bind.2 (.inl ⟨n, s₁, hrun, hrun'⟩), hends.through hl hy⟩

theorem searches (h : G.Serves world host) (start : String) (depth : Nat) :
    G.Searches world host start depth := by
  induction depth with
  | zero => exact fun _ _ _ _ _ _ _ _ hcard => absurd hcard (Nat.not_lt_zero _)
  | succ depth ih =>
    intro m name visited s hw hm hh hp hcard
    rw [resolveExport, Act.view_bind, h.record hw hm hh]
    cases hs : G.source m with
    | none => exact searchLeaf_ends h hs hw hm hh
    | some record =>
      by_cases hv : (m, name) ∈ visited
      · refine ⟨_, s, congrFun (if_pos (List.contains_iff_mem.2 hv)) s, ?_⟩
        exact .settled ∅ none ⟨.inl hv, fun _ => id, fun _ => .inl,
          fun _ hq => hq.elim, fun _ hq => hq.elim⟩ (fun b => by simp) fun _ hb => by cases hb
      · have hcard' : (unasked (G.pairs start) ((m, name) :: visited)).card < depth :=
          (card_unasked_lt _ hp hv (List.mem_cons_self ..) fun _ =>
            List.mem_cons_of_mem _).trans_le (Nat.le_of_lt_succ hcard)
        simp only [List.contains_iff_mem, hv, if_false]
        cases ho : record.ownExport? name with
        | some own =>
          rw [SourceRecord.ownExport?] at ho
          simp only [ho]
          refine ⟨_, s, rfl, Ends.alone (some (m, .name own.localName))
            (fun q => not_leads_of_own hs ho) (.inr rfl) (fun b => ?_) fun b hb => ?_⟩
          · rw [yields_own_iff hs ho, Option.some.injEq, eq_comm]
          · cases hb
            exact hh
        | none =>
          rw [SourceRecord.ownExport?] at ho
          simp only [ho]
          cases hi : record.indirectExport? name with
          | some e =>
            rw [SourceRecord.indirectExport?] at hi
            simp only [hi]
            exact searchIndirect_ends h ih hs ho hi hw hm hh hp hcard'
          | none =>
            rw [SourceRecord.indirectExport?] at hi
            simp only [hi]
            by_cases hd : name = "default"
            · rw [if_pos hd]
              refine ⟨_, s, rfl, Ends.alone none (fun q hq => ?_) (.inr rfl)
                (fun b => ?_) fun b hb => by cases hb⟩
              · exact ((leads_star_iff hs ho hi).1 hq).1 hd
              · simpa using not_yields_star hs ho hi
            · rw [if_neg hd]
              exact joinStars_ends h ih hs ho hi hd hm hp record.starExports [] _ _ _ s rfl hw hh
                hcard' (.first fun b => not_yields_star hs ho hi)

end ModuleGraph.ExportGraph
