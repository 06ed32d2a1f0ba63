import ModuleGraph.Proofs.Exports.Namespaces

/-! # What a module checks before it is linked

A source text module looks up its indirect exports and its imports when it is initialized. It
passes just if all of them can be taken from where they come from, unless something that it
requests is refused further down. -/

namespace ModuleGraph

open Relation

variable {σ κ α β ε : Type}

/-- A result that is there only if `A` holds, and that is there if `A` holds and nothing else is in
the way. -/
def Passes (clear A : Prop) (r : Except ε α) : Prop :=
  ((∃ a, r = .ok a) → A) ∧ (clear → A → ∃ a, r = .ok a)

namespace Passes

variable {clear A B : Prop} {r : Except ε α} {e : ε}

theorem ok {a : α} (h : A) : Passes clear A (.ok a : Except ε α) :=
    ⟨fun _ => h, fun _ _ => ⟨a, rfl⟩⟩

theorem error (h : clear → ¬A) : Passes clear A (.error e : Except ε α) :=
  ⟨fun ⟨_, ha⟩ => (nomatch ha), fun hc ha => absurd ha (h hc)⟩

theorem not_of_error (h : Passes clear A (.error e : Except ε α)) (hc : clear) : ¬A :=
  fun ha => nomatch h.2 hc ha

theorem congr (h : Passes clear A r) (hab : A ↔ B) : Passes clear B r :=
  ⟨fun hr => hab.1 (h.1 hr), fun hc hb => h.2 hc (hab.2 hb)⟩

end Passes

theorem Returns.and_then {world : Machine σ κ → Prop} {s : Machine σ κ}
    {x : ExceptT ε (Run σ κ) α} {f : α → ExceptT ε (Run σ κ) β} {clear A B : Prop}
    (hx : Returns world x s fun r _ => Passes clear A r)
    (hf : ∀ a s₁, world s₁ → (∀ m, s.Has m → s₁.Has m) → A →
      Returns world (f a) s₁ fun r _ => Passes clear B r) :
    Returns world (x >>= f) s fun r _ => Passes clear (A ∧ B) r := by
  refine .bind hx (fun a s₁ hw hgrow ha => ?_)
    fun e s₁ he => .error fun hc hab => he.not_of_error hc hab.1
  have hA := ha.1 ⟨a, rfl⟩
  exact (hf a s₁ hw hgrow hA).mono fun r _ hr =>
    hr.congr ⟨fun hb => ⟨hA, hb⟩, fun hab => hab.2⟩

namespace ExportGraph

variable {G : ExportGraph} {world : Machine σ κ → Prop} {host : Host σ κ} {s : Machine σ κ}
variable {m n : ModuleId} {name request : String} {record : SourceRecord} {path : List String}

theorem Replies.passes {clear : Prop} {r : Except ε ModuleId} (h : G.Replies m request s r) :
    Passes clear (G.Takes m request none) r := by
  cases h with
  | @answered n ht _ => exact .ok ⟨n, ht, fun _ hi => nomatch hi⟩
  | refused ht => exact .error fun _ => not_takes ht

/-- How the lookup of an imported name ends: with the one binding of the name, if there is one. -/
structure Imports (G : ExportGraph) (m : ModuleId) (request name : String) (s' : Machine σ κ)
    (r : Except LinkError (ModuleId × BindingName)) : Prop where
  found : ∀ b, r = .ok b →
    s'.Has b.1 ∧ ∃ n, G.target m request = some n ∧ G.Binds (n, name) b
  complete : G.Clear m → G.Takes m request (some name) → ∃ b, r = .ok b

theorem Imports.passes {r : Except LinkError (ModuleId × BindingName)}
    (h : G.Imports m request name s r) : Passes (G.Clear m) (G.Takes m request (some name)) r := by
  refine ⟨fun ⟨b, hb⟩ => ?_, h.complete⟩
  obtain ⟨-, n, ht, hbinds⟩ := h.found b hb
  exact ⟨n, ht, fun imported hi => ⟨b, Option.some.inj hi ▸ hbinds⟩⟩

section Lookups

variable (h : G.Serves world host) (hlist : G.Listed) (hdepth : G.bound < host.depth)
include h hlist hdepth

/-- A namespace object is made unless something below the module is refused. -/
theorem namespaceOf_returns (hw : world s) (hm : m ∈ G.modules) (hh : s.Has m) :
    Returns world (host.namespaceOf m) s fun r _ => Passes (G.Clear m) True r :=
  .bind (namespaceKeys_returns h hdepth hw hm hh) (fun _ _ hw₁ _ _ => .pure hw₁ (.ok trivial))
    fun _ _ he => .error fun hc _ => hc.not_obscured hlist he

/-! ## Imports -/

omit hlist hdepth in
theorem resolveRequest_returns (hw : world s) (hm : m ∈ G.modules) (hh : s.Has m)
    (path : List String) (request : String) :
    Returns world (resolveRequest host path m request) s fun r s' => G.Replies m request s' r := by
  refine .ofAct (resolve_returns h hw hm hh request) fun r s' hr => ?_
  cases hr with
  | answered ht hn => exact .answered ht hn
  | refused ht => exact .refused ht

omit hlist in
theorem resolveBehind_returns (hw : world s) (hm : m ∈ G.modules) (hh : s.Has m)
    (request name : String) :
    Returns world (do
      let target ← host.resolve (.module m) request
      host.resolution target name) s fun r s' =>
        (G.target m request = none ∧ ∃ e, r = .error e) ∨
          ∃ n, G.target m request = some n ∧ G.Tells s' (n, name) r := by
  refine .bind (resolve_returns h hw hm hh request) (fun n s₁ hw₁ _ hn => ?_) fun e s₁ he => ?_
  · cases hn with
    | answered ht hhas =>
      exact (resolution_returns h hdepth hw₁ (G.closed hm ht) hhas name).mono
        fun r s' hr => .inr ⟨n, ht, hr⟩
  · cases he with
    | refused ht => exact .inl ⟨ht, e, rfl⟩

theorem resolveImport_returns (hs : G.source m = some record) (hr : request ∈ record.requested)
    (hw : world s) (hm : m ∈ G.modules) (hh : s.Has m) (path : List String) (name : String) :
    Returns world (resolveImport host path m request name) s fun r s' =>
      G.Imports m request name s' r := by
  -- A binding of the name is found if it is the only one and nothing is refused.
  have hfinds : ∀ {s' : Machine σ κ} {r : Except Value (Option Resolution)},
      (G.target m request = none ∧ (∃ e, r = .error e) ∨
        ∃ n, G.target m request = some n ∧ G.Tells s' (n, name) r) → G.Clear m →
          G.Takes m request (some name) → ∃ b : ModuleId × BindingName,
            r = .ok (some (.found b.1 b.2)) := by
    rintro s' r hl hc ⟨n, ht, hb⟩
    obtain ⟨b, hb⟩ := hb name rfl
    obtain ⟨ht', -⟩ | ⟨n', ht', htells⟩ := hl <;> cases ht.symm.trans ht'
    refine ⟨b, htells.of_binds (fun q hq => ?_) hb⟩
    exact (hc.of_requests (.single ⟨record, hs, request, hr, ht⟩)).not_blocked hlist hq
  refine .ofAct_bind (resolveBehind_returns h hdepth hw hm hh request name)
    (fun resolution s₁ hw₁ _ hl => ?_) fun e s₁ hl => ⟨fun _ hb => (nomatch hb), fun hc ht => ?_⟩
  · split
    · rename_i target b
      refine .pure hw₁ ⟨fun c hc => ?_, fun _ _ => ⟨_, rfl⟩⟩
      cases hc
      obtain ⟨-, e, he⟩ | ⟨n, ht, htells⟩ := hl
      · cases he
      · obtain ⟨hb, hhas⟩ := Tells.binds (b := (target, b)) htells
        exact ⟨hhas, n, ht, hb⟩
    · refine .throw hw₁ ⟨fun _ hb => (nomatch hb), fun hc ht => ?_⟩
      obtain ⟨b, hb⟩ := hfinds hl hc ht
      cases hb
    · refine .throw hw₁ ⟨fun _ hb => (nomatch hb), fun hc ht => ?_⟩
      obtain ⟨b, hb⟩ := hfinds hl hc ht
      cases hb
  · obtain ⟨b, hb⟩ := hfinds hl hc ht
    cases hb

theorem checkIndirect_returns {e : IndirectExport} (hs : G.source m = some record)
    (hr : e.request ∈ record.requested) (hw : world s) (hm : m ∈ G.modules) (hh : s.Has m)
    (path : List String) :
    Returns world (checkIndirect host path m e) s fun r _ =>
      Passes (G.Clear m) (G.Takes m e.request e.importName) r := by
  rw [checkIndirect]
  cases himp : e.importName with
  | some name =>
    exact .bind (resolveImport_returns h hlist hdepth hs hr hw hm hh path name)
      (fun b s₁ hw₁ _ hb => .pure hw₁ (.ok (hb.passes.1 ⟨b, rfl⟩)))
      fun e s₁ he => .error he.passes.not_of_error
  | none =>
    refine .bind (resolveRequest_returns h hw hm hh path e.request) (fun n s₁ hw₁ _ hn => ?_)
      fun e s₁ he => .error he.passes.not_of_error
    cases hn with
    | answered ht _ => exact .pure hw₁ (.ok ⟨n, ht, fun _ hi => by cases hi⟩)

theorem namespaceBinding_returns (hw : world s) (hm : m ∈ G.modules) (hh : s.Has m)
    (path : List String) (request : String) :
    Returns world (namespaceBinding host path request m) s fun r _ =>
      Passes (G.Clear m) True r :=
  .ofAct_bind (namespaceOf_returns h hlist hdepth hw hm hh)
    (fun _ _ hw₁ _ _ => .pure hw₁ (.ok trivial)) fun _ _ he => .error he.not_of_error

/-- The constant for the namespace of a module below `n` is no reason to fail unless something below
`n` is refused. -/
theorem namespaceBelow_returns {A : Prop} (ha : A) (hn : ReflTransGen G.Requests n m) (hw : world s)
    (hm : m ∈ G.modules) (hh : s.Has m) (path : List String) (request : String) :
    Returns world (namespaceBinding host path request m) s fun r _ => Passes (G.Clear n) A r := by
  refine (namespaceBinding_returns h hlist hdepth hw hm hh path request).mono fun r _ hr => ?_
  exact ⟨fun _ => ha, fun hc _ => hr.2 (hc.of_requests hn) trivial⟩

theorem importBinding_returns {i : ImportEntry} (hs : G.source m = some record)
    (hr : i.request ∈ record.requested) (hw : world s) (hm : m ∈ G.modules) (hh : s.Has m)
    (path : List String) :
    Returns world (importBinding host path m i) s fun r _ =>
      Passes (G.Clear m) (G.Takes m i.request i.importName) r := by
  rw [importBinding]
  cases himp : i.importName with
  | none =>
    refine .bind (resolveRequest_returns h hw hm hh path i.request) (fun n s₁ hw₁ _ hn => ?_)
      fun e s₁ he => .error he.passes.not_of_error
    cases hn with
    | answered ht hhas =>
      exact namespaceBelow_returns h hlist hdepth ⟨n, ht, fun _ hi => by cases hi⟩
        (.single ⟨record, hs, _, hr, ht⟩) hw₁ (G.closed hm ht) hhas path i.request
  | some name =>
    refine .bind (resolveImport_returns h hlist hdepth hs hr hw hm hh path name)
      (fun b s₁ hw₁ _ hb => ?_) fun e s₁ he => .error he.passes.not_of_error
    have htakes := hb.passes.1 ⟨b, rfl⟩
    obtain ⟨hhas, n, ht, hbinds⟩ := hb.found b rfl
    have hbelow : ReflTransGen G.Requests m b.1 :=
      .head ⟨record, hs, _, hr, ht⟩ (hbinds.provides.requests hlist)
    obtain ⟨target, b⟩ := b
    cases b with
    | «namespace» =>
      exact namespaceBelow_returns h hlist hdepth htakes hbelow hw₁ (mem_of_requests hbelow hm) hhas
        path i.request
    | name binding => exact .pure hw₁ (.ok htakes)

theorem bindImports_returns (hs : G.source m = some record) (hm : m ∈ G.modules)
    (path : List String) (imports : List ImportEntry) :
    ∀ env s, (∀ i ∈ imports, i.request ∈ record.requested) → world s → s.Has m →
      Returns world (bindImports host path m imports env) s fun r _ =>
        Passes (G.Clear m) (∀ i ∈ imports, G.Takes m i.request i.importName) r := by
  induction imports with
  | nil => exact fun env s _ hw _ => .pure hw (.ok fun _ hi => nomatch hi)
  | cons i rest ih =>
    intro env s hr hw hh
    obtain ⟨hi, hrest⟩ := List.forall_mem_cons.1 hr
    refine ((importBinding_returns h hlist hdepth hs hi hw hm hh path).and_then
      fun b s₁ hw₁ hgrow _ => ih _ s₁ hrest hw₁ (hgrow m hh)).mono fun r _ hpass => hpass.congr ?_
    rw [List.forall_mem_cons]

theorem checkIndirects_returns (hs : G.source m = some record) (hm : m ∈ G.modules)
    (path : List String) (entries : List IndirectExport) :
    ∀ s, (∀ e ∈ entries, e.request ∈ record.requested) → world s → s.Has m →
      Returns world (entries.forM (checkIndirect host path m)) s fun r _ =>
        Passes (G.Clear m) (∀ e ∈ entries, G.Takes m e.request e.importName) r := by
  induction entries with
  | nil => exact fun s _ hw _ => .pure hw (.ok fun _ he => nomatch he)
  | cons e rest ih =>
    intro s hr hw hh
    obtain ⟨he, hrest⟩ := List.forall_mem_cons.1 hr
    refine ((checkIndirect_returns h hlist hdepth hs he hw hm hh path).and_then
      fun _ s₁ hw₁ hgrow _ => ih s₁ hrest hw₁ (hgrow m hh)).mono fun r _ hpass => hpass.congr ?_
    rw [List.forall_mem_cons]

end Lookups

/-! ## Initializing a module -/

/-- A host that serves a graph in links. Its other hooks never throw, and the modules have been made
from their records. A journal of the answers tells what the graph says; it takes no part. -/
structure Links (G : ExportGraph) (journal : σ → Journal) (world : Machine σ κ → Prop)
    (host : Host σ κ) : Prop where
  serves : G.Serves world host
  conduct : LinkConduct journal host
  requested : ∀ {s m}, world s → m ∈ G.modules → s.Has m →
    (s.cyclic? m).map (·.requested) = (G.source m).map (·.requested)
  noted : ∀ {s m request n}, world s → m ∈ G.modules →
    Entry.resolved m request n ∈ journal s.host → G.target m request = some n
  text : ∀ s m {f : Module → Module}, (∀ x : Module, x.kind.SameText (f x).kind) →
    Machine.Stays world s (s.updateModule m f)
  linkLeaf : ∀ m, Within (Machine.Stays world) (host.linkLeaf m)
  linksLeaf : ∀ {s m}, world s → m ∈ G.modules → s.Has m →
    ∃ s', host.linkLeaf m s = some (.ok (), s')
  prepare : ∀ m, Within (Machine.Stays world) (host.prepare m)
  prepares : ∀ {s m}, world s → m ∈ G.modules → s.Has m →
    ∃ s', host.prepare m s = some (.ok (), s')

variable {journal : σ → Journal}

theorem initializeSource_returns (h : G.Links journal world host) (hlist : G.Listed)
    (hdepth : G.bound < host.depth) (hs : G.source m = some record) (hw : world s)
    (hm : m ∈ G.modules) (hh : s.Has m) (path : List String) :
    Returns world (initializeSource host path m record) s fun r _ =>
      Passes (G.Clear m) ((∀ e ∈ record.indirectExports, G.Takes m e.request e.importName) ∧
        ∀ i ∈ record.imports, G.Takes m i.request i.importName) r := by
  have hlisted := hlist m record hs
  refine (checkIndirects_returns h.serves hlist hdepth hs hm path record.indirectExports s
    hlisted.indirect hw hh).and_then fun _ s₁ hw₁ hgrow₁ _ => ?_
  refine .bind (bindImports_returns h.serves hlist hdepth hs hm path record.imports _ s₁
    hlisted.imports hw₁ (hgrow₁ m hh)) (fun env s₂ hw₂ hgrow₂ himports => ?_)
    fun e s₂ he => .error he.not_of_error
  refine .step rfl (h.text s₂ m fun x => ?_) hw₂ fun hw₃ hgrow₃ => ?_
  · change x.kind.SameText (x.kind.setEnvironment _)
    cases x.kind <;> exact ⟨rfl, rfl⟩
  · obtain ⟨s₄, hrun⟩ := h.prepares hw₃ hm (hgrow₃ m (hgrow₂ m (hgrow₁ m hh)))
    have hprepare : Returns world (host.prepare m) _ fun r _ => r = .ok () :=
      .of_within (h.prepare m) hw₃ ⟨_, s₄, hrun, rfl⟩
    refine .ofAct hprepare fun r s' hr => ?_
    rw [hr]
    exact .ok (himports.1 ⟨_, rfl⟩)

end ExportGraph

end ModuleGraph
