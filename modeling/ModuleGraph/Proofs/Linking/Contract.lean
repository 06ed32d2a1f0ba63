import ModuleGraph.Proofs.Linking.Visit
import ModuleGraph.Proofs.Planned

/-! # What a link leaves behind

After a link no module is being linked. What was linked before is as it was. What was not is either
unlinked, with nothing that linking makes, or linked together with everything that it requests: the
cycles that were closed before a failure need nothing that the failure takes back. -/

namespace ModuleGraph

open Relation

variable {σ κ : Type}

/-- What anything but a link does to the machine: modules that are not linked stay as they are,
linked ones stay linked and keep their requests, and modules are made. This covers evaluation,
jobs, and the code of the host that runs in between: see `Conforms.linkReachable`. -/
structure Machine.Advances (journal : σ → Journal) (s s' : Machine σ κ) : Prop where
  unlinked : ∀ m, s.Has m → s.status m = .unlinked → (s'.module m).kind = (s.module m).kind
  linked : ∀ m, (s.status m).IsLinked →
    (s'.status m).IsLinked ∧ s'.requested m = s.requested m
  made : ∀ m, ¬s.Has m → (s'.module m).kind.IsNew
  noted : ∃ k, journal s'.host = journal s.host ++ k

/-- The machines between two links, for links by the given hosts. -/
inductive LinkReachable (journal : σ → Journal) (hosts : Set (Host σ κ)) : Machine σ κ → Prop
  | initial (host : σ) : LinkReachable journal hosts (Machine.initial host)
  | advance {s s' : Machine σ κ} : LinkReachable journal hosts s → s.Advances journal s' →
      LinkReachable journal hosts s'
  | link {s s' : Machine σ κ} {host : Host σ κ} {m : ModuleId} {result : Except LinkError Unit} :
      LinkReachable journal hosts s → host ∈ hosts → s.Has m →
        host.link m s = some (result, s') → LinkReachable journal hosts s'

namespace Machine

variable {journal : σ → Journal} {s s' start : Machine σ κ} {m x : ModuleId} {host : Host σ κ}
variable {result : Except LinkError Unit}

structure AtRest (journal : σ → Journal) (s : Machine σ κ) : Prop where
  unlinked : ∀ x, ¬(s.status x).IsLinked → (s.module x).kind.IsUnlinked
  answered : ∀ x, (s.status x).IsLinked → ∀ r ∈ s.requested x, s.Answered journal x r

theorem AtRest.not_linking (h : s.AtRest journal) (x : ModuleId) : s.status x ≠ .linking := by
  intro e
  have hx : s.status x = .unlinked := (h.unlinked x (by rw [e]; exact id)).status_eq
  rw [e] at hx
  exact Status.noConfusion hx

theorem atRest_initial (host : σ) : (initial host : Machine σ κ).AtRest journal := by
  have hnew : ∀ x, ((initial host : Machine σ κ).module x).kind.IsUnlinked := fun x =>
    (isNew_of_not_has (Nat.not_lt_zero _)).isUnlinked
  refine ⟨fun x _ => hnew x, fun x hx => ?_⟩
  rw [status, (hnew x).status_eq] at hx
  exact hx.elim

theorem advances_of_isNew (hnew : ∀ m, (s.module m).kind.IsNew) :
    (initial s.host : Machine σ κ).Advances journal s where
  unlinked m hm := absurd hm (Nat.not_lt_zero _)
  linked m hm := by
    rw [status, (isNew_of_not_has (Nat.not_lt_zero _)).isUnlinked.status_eq] at hm
    exact hm.elim
  made m _ := hnew m
  noted := ⟨[], (List.append_nil _).symm⟩

theorem AtRest.advance (h : s.AtRest journal) (ha : s.Advances journal s') : s'.AtRest journal := by
  have hold : ∀ x, s.Has x → ¬(s.status x).IsLinked → (s'.module x).kind.IsUnlinked := by
    intro x hx hl
    rw [ha.unlinked x hx (h.unlinked x hl).status_eq]
    exact h.unlinked x hl
  have hlinked : ∀ x, (s'.status x).IsLinked → (s.status x).IsLinked := by
    intro x hx
    by_contra hl
    have hu : (s'.module x).kind.IsUnlinked := by
      by_cases hh : s.Has x
      · exact hold x hh hl
      · exact (ha.made x hh).isUnlinked
    rw [status, hu.status_eq] at hx
    exact hx
  refine ⟨fun x hx => ?_, fun x hx r hr => ?_⟩
  · by_cases hh : s.Has x
    · exact hold x hh fun hl => hx (ha.linked x hl).1
    · exact (ha.made x hh).isUnlinked
  · obtain ⟨-, hreq⟩ := ha.linked x (hlinked x hx)
    rw [hreq] at hr
    obtain ⟨n, hn, hn'⟩ := h.answered x (hlinked x hx) r hr
    obtain ⟨k, hk⟩ := ha.noted
    exact ⟨n, by rw [hk]; exact List.mem_append_left _ hn, (ha.linked n hn').1⟩

theorem AtRest.inLink (h : s.AtRest journal) : InLink journal s s [] where
  nodup := .nil
  open_iff x := ⟨fun e => absurd e (h.not_linking x), fun hx => nomatch hx⟩
  marked _ hx := nomatch hx
  unlinked x hx := h.unlinked x (by rw [hx]; exact id)
  kept _ _ := rfl
  linked _ hx hx' := absurd hx' hx
  answered := h.answered

theorem InLink.atRest (h : InLink journal start s []) : s.AtRest journal where
  unlinked x hx := by
    refine h.unlinked x ?_
    have hl : s.status x ≠ .linking := fun e => nomatch (h.open_iff x).1 e
    revert hx hl
    cases s.status x <;> simp [Status.IsLinked]
  answered := h.answered

def takeBack (k : ModuleKind) : ModuleKind :=
  (k.updateCyclic fun c => { c with status := .unlinked, visit := none, ancestor := none }).unlink

theorem unlink_eq_updateKind (s : Machine σ κ) (m : ModuleId) :
    s.unlink m = s.updateKind m takeBack := by
  simp only [Machine.unlink, updateCyclic, updateKind, updateModule]
  congr 1
  refine Array.ext (by simp) fun i hi _ => ?_
  simp only [Array.getElem_modify]
  split <;> rfl

theorem foldl_unlink_eq (s : Machine σ κ) (stack : List ModuleId) :
    stack.foldl Machine.unlink s = stack.foldl (fun s x => s.updateKind x takeBack) s :=
  congrArg (fun f => stack.foldl f s) (funext fun s => funext fun x => unlink_eq_updateKind s x)

/-- A failed link takes back what was open. -/
theorem InLink.unlink {stack : List ModuleId} (h : InLink journal start s stack) :
    InLink journal start (stack.foldl Machine.unlink s) [] := by
  have hkind := fun x => kind_foldl_updateKind (n := x) takeBack h.nodup fun x => h.has
  have hhost := host_foldl_updateKind (s := s) takeBack stack
  rw [← foldl_unlink_eq] at hkind hhost
  generalize stack.foldl Machine.unlink s = s' at hkind hhost ⊢
  have hout : ∀ x, x ∉ stack → (s'.module x).kind = (s.module x).kind :=
    fun x hx => by rw [hkind, if_neg hx]
  have hstatus : ∀ x, x ∉ stack → s'.status x = s.status x :=
    fun x hx => by rw [status, hout x hx, status]
  have hin : ∀ x ∈ stack, (s'.module x).kind.IsUnlinked := by
    intro x hx
    obtain ⟨c, hc, -⟩ := h.marked x hx
    rw [hkind, if_pos hx]
    rw [cyclic?_eq] at hc
    cases hk : (s.module x).kind with
    | source r env c => exact ⟨rfl, rfl, rfl, rfl⟩
    | foreign i c => exact ⟨rfl, rfl, rfl, rfl⟩
    | leaf state =>
      rw [hk] at hc
      cases hc
  have hlinked : ∀ x, (s'.status x).IsLinked → x ∉ stack := by
    intro x hx hx'
    rw [status, (hin x hx').status_eq] at hx
    exact hx
  refine ⟨.nil, fun x => ?_, fun x hx => ?_, fun x hx => ?_, fun x hx => ?_,
    fun x hx hx' => ?_, fun x hx r hr => ?_⟩
  · refine ⟨fun e => ?_, fun hx => by cases hx⟩
    by_cases hx : x ∈ stack
    · rw [status, (hin x hx).status_eq] at e
      exact Status.noConfusion e
    · rw [hstatus x hx] at e
      exact absurd ((h.open_iff x).1 e) hx
  · cases hx
  · by_cases hx' : x ∈ stack
    · exact hin x hx'
    · rw [hstatus x hx'] at hx
      rw [hout x hx']
      exact h.unlinked x hx
  · rw [hout x fun hx' => h.not_linked hx' (by rwa [h.status_kept hx]), h.kept x hx]
  · have e := hlinked x hx'
    rw [hstatus x e] at hx' ⊢
    exact h.linked x hx hx'
  · have e := hlinked x hx
    rw [hstatus x e] at hx
    rw [requested, cyclic?_eq, hout x e, ← cyclic?_eq, ← requested] at hr
    obtain ⟨n, hn, hn'⟩ := h.answered x hx r hr
    refine ⟨n, by rwa [hhost], ?_⟩
    rwa [hstatus n fun hs => h.not_linked hs hn']

/-- The end of a link that was started between two links. -/
theorem linkThrough_ends {view : Machine σ κ → Machine σ κ} (hc : LinksThrough journal view host)
    (h : (view s).AtRest journal) (hm : s.Has m) (hrun : host.link m s = some (result, s')) :
    InLink journal (view s) (view s') [] ∧ (result = .ok () → ((view s').status m).IsLinked) := by
  rw [Host.link, Run.bind_eq_some] at hrun
  obtain ⟨⟨r, t⟩, s₁, h₁, h₂⟩ := hrun
  have hends := visitLinking_ends hc host.depth [] m [] s ⟨[], 0⟩ r s₁ t (.first h.inLink) hm h₁
  cases r with
  | ok a =>
    cases h₂
    rcases hends.outcome with ⟨hs, hl⟩ | ⟨hs, hlt, -⟩
    · have hnil := hs.search.stack_eq_nil
      have hin := hs.toInLink
      rw [hnil] at hin hl
      exact ⟨hin, fun _ => hl.resolve_right (List.not_mem_nil)⟩
    · have := hs.search.low_eq_of_first
      omega
  | error e =>
    cases h₂
    rw [LinkView.foldl hc.unlink]
    exact ⟨InLink.unlink hends, fun e => nomatch e⟩

theorem link_ends (hc : LinkConduct journal host) (h : s.AtRest journal) (hm : s.Has m)
    (hrun : host.link m s = some (result, s')) :
    InLink journal s s' [] ∧ (result = .ok () → (s'.status m).IsLinked) :=
  linkThrough_ends (linksThrough_id hc) h hm hrun

theorem atRest_of_reachable {hosts : Set (Host σ κ)} (hc : ∀ host ∈ hosts, LinkConduct journal host)
    (h : LinkReachable journal hosts s) : s.AtRest journal := by
  induction h with
  | initial host => exact atRest_initial host
  | advance _ ha ih => exact ih.advance ha
  | link _ hhost hm hrun ih => exact (link_ends (hc _ hhost) ih hm hrun).1.atRest

end Machine

/-- The contract of a link, whether it succeeds or fails. No module is being linked afterwards;
what was linked before is unchanged; what was unlinked is unlinked without a trace, or it is linked
together with everything that it requests. A link that succeeds links everything below the module
it was called for. -/
theorem link_contract {journal : σ → Journal} {hosts : Set (Host σ κ)}
    (hc : ∀ host ∈ hosts, LinkConduct journal host) {s s' : Machine σ κ} {host : Host σ κ}
    {m : ModuleId} {result : Except LinkError Unit} (hs : LinkReachable journal hosts s)
    (hhost : host ∈ hosts) (hm : s.Has m) (hrun : host.link m s = some (result, s'))
    (hstable : (journal s'.host).Stable) :
    (∀ x, s'.status x ≠ .linking) ∧
    (∀ x, (s.status x).IsLinked → (s'.module x).kind = (s.module x).kind) ∧
    (∀ x, s.status x = .unlinked →
      (s'.module x).kind.IsUnlinked ∨
        s'.status x = .linked ∧ ∀ r ∈ s'.requested x,
          (∃ n, Entry.resolved x r n ∈ journal s'.host) ∧
            ∀ n, Entry.resolved x r n ∈ journal s'.host → (s'.status n).IsLinked) ∧
    (result = .ok () →
      ∀ x, ReflTransGen (s'.Requests (journal s'.host)) m x → (s'.status x).IsLinked) := by
  obtain ⟨hin, hok⟩ := Machine.link_ends (hc host hhost) (Machine.atRest_of_reachable hc hs) hm hrun
  have hrest := hin.atRest
  have hrequested : ∀ x, (s'.status x).IsLinked → ∀ r ∈ s'.requested x, ∀ n,
      Entry.resolved x r n ∈ journal s'.host → (s'.status n).IsLinked := by
    intro x hx r hr n hn
    obtain ⟨n', hn', hl⟩ := hrest.answered x hx r hr
    rwa [hstable x r n n' hn hn']
  refine ⟨hrest.not_linking, hin.kept, fun x hx => ?_, fun hr x hx => ?_⟩
  · by_cases hl : (s'.status x).IsLinked
    · refine .inr ⟨hin.linked x (by rw [hx]; exact id) hl, fun r hr => ⟨?_, hrequested x hl r hr⟩⟩
      obtain ⟨n, hn, -⟩ := hrest.answered x hl r hr
      exact ⟨n, hn⟩
    · exact .inl (hrest.unlinked x hl)
  · induction hx with
    | refl => exact hok hr
    | tail _ hstep ih =>
      obtain ⟨r, hr, hn⟩ := hstep
      exact hrequested _ ih r hr _ hn

/-! ## A refused request -/

/-- Module `0` requests module `1`, which requests itself, and one that does not exist. -/
def refusal : Plan where
  target _ request := if request = "b" then some ⟨1⟩ else none
  body _ := .completes

def beforeRefusal : Machine Journal ModuleId :=
  { Machine.initial [] with
    modules := #[.new (.foreign false (.new ["b", "c"] false)) none,
      .new (.foreign false (.new ["b"] false)) none] }

def afterRefusal : Machine Journal ModuleId :=
  ((refusal.host 4).link ⟨0⟩ beforeRefusal).elim beforeRefusal (·.2)

theorem beforeRefusal_reachable : LinkReachable id {refusal.host 4} beforeRefusal := by
  refine (LinkReachable.initial beforeRefusal.host).advance (Machine.advances_of_isNew fun m => ?_)
  obtain ⟨_ | _ | n⟩ := m
  · exact ⟨rfl, rfl⟩
  · exact ⟨rfl, rfl⟩
  · exact Machine.isNew_of_not_has (by simp [Machine.Has, beforeRefusal])

/-- The cycle that was closed before the refusal stays linked. -/
theorem link_contract_refused :
    (refusal.host 4).link ⟨0⟩ beforeRefusal =
        some (.error ⟨.resolution "c" (.error ⟨0⟩), ["c"]⟩, afterRefusal) ∧
      (∀ x, afterRefusal.status x ≠ .linking) ∧
      ((afterRefusal.module ⟨1⟩).kind.IsUnlinked ∨ afterRefusal.status ⟨1⟩ = .linked ∧
        ∀ r ∈ afterRefusal.requested ⟨1⟩,
          (∃ n, Entry.resolved ⟨1⟩ r n ∈ afterRefusal.host) ∧
            ∀ n, Entry.resolved ⟨1⟩ r n ∈ afterRefusal.host →
              (afterRefusal.status n).IsLinked) := by
  have hstable : Journal.Stable afterRefusal.host := by
    have hj : afterRefusal.host = [.resolved ⟨0⟩ "b" ⟨1⟩, .resolved ⟨1⟩ "b" ⟨1⟩,
      .refused ⟨0⟩ "c" (.error ⟨0⟩)] := rfl
    rw [hj]
    intro m r n n' hn hn'
    simp only [List.mem_cons, Entry.resolved.injEq, reduceCtorEq, List.not_mem_nil, or_false] at *
    rcases hn with ⟨-, -, rfl⟩ | ⟨-, -, rfl⟩ <;> rcases hn' with ⟨-, -, rfl⟩ | ⟨-, -, rfl⟩ <;> rfl
  obtain ⟨hlinking, -, hunlinked, -⟩ := link_contract
    (fun host hhost => by rw [hhost]; exact refusal.linkConduct 4) beforeRefusal_reachable rfl
    (show 0 < 2 by decide) rfl hstable
  exact ⟨rfl, hlinking, hunlinked ⟨1⟩ rfl⟩

end ModuleGraph
