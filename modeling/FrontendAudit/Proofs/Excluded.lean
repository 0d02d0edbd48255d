import FrontendAudit.Proofs.Scan
import FrontendAudit.Proofs.Walk
import Mathlib.Data.List.Basic

namespace FrontendAudit

namespace Selection

def Clear (names : List String) : Prop :=
  ∀ name ∈ names, name ≠ "node_modules" ∧ name ≠ ".next"

instance (names : List String) : Decidable (Clear names) :=
  inferInstanceAs (Decidable (∀ name ∈ names, name ≠ "node_modules" ∧ name ≠ ".next"))

section

variable {name : String} {names : List String}

theorem Clear.of_cons (h : Clear (name :: names)) : Clear names :=
  fun n hn ↦ h n (List.mem_cons_of_mem name hn)

theorem Clear.append {names' : List String} (h : Clear names) (h' : Clear names') : Clear (names ++ names') :=
  List.forall_mem_append.2 ⟨h, h'⟩

theorem Clear.steps {t : String} (h : Clear (Disk.Path.names t)) : Clear (Disk.Path.steps t) := by
  rw [Disk.Path.steps]
  split
  · exact h.append (by decide)
  · exact h

theorem Clear.join {t : String} (h : Clear (Disk.Path.names t)) (hname : Disk.Path.IsName name)
    (hclear : name ≠ "node_modules" ∧ name ≠ ".next") : Clear (Disk.Path.names (Disk.Path.join t name)) := by
  rw [Disk.Path.names_join t hname]
  exact h.append (List.forall_mem_singleton.2 hclear)

end

end Selection

namespace Disk.Node

mutual

def isLinkFree : Node → Bool
  | file _ => true
  | link _ => false
  | dir entries => areLinkFree entries

def areLinkFree : List (String × Node) → Bool
  | [] => true
  | (_, n) :: rest => n.isLinkFree && areLinkFree rest

end

def emptied : Node → Node
  | dir _ => dir []
  | n => n

mutual

/-- The tree with its excluded directories emptied. -/
def pruned : Node → Node
  | file content => file content
  | link target => link target
  | dir entries => dir (prunedEntries entries)

def prunedEntries : List (String × Node) → List (String × Node)
  | [] => []
  | (name, n) :: rest =>
    (name, if name = "node_modules" ∨ name = ".next" then n.emptied else n.pruned) :: prunedEntries rest

end

theorem hereditary_isLinkFree : Hereditary fun n ↦ n.isLinkFree = true := by
  intro entries name n hdir hfound
  rw [isLinkFree] at hdir
  induction entries with
  | nil => cases hfound
  | cons e rest ih =>
    obtain ⟨k, m⟩ := e
    rw [areLinkFree, Bool.and_eq_true] at hdir
    by_cases hk : name = k
    · subst hk
      rw [List.lookup_cons_self] at hfound
      exact Option.some.inj hfound ▸ hdir.1
    · rw [Keyed.lookup_cons_of_ne hk] at hfound
      exact ih hdir.2 hfound

theorem prunedEntries_eq_map (entries : List (String × Node)) :
    prunedEntries entries =
      entries.map fun e ↦
        (e.1, if e.1 = "node_modules" ∨ e.1 = ".next" then e.2.emptied else e.2.pruned) := by
  induction entries with
  | nil => simp [prunedEntries]
  | cons e rest ih => rw [prunedEntries, ih, List.map_cons]

theorem kind_pruned (name : String) (n : Node) :
    (if name = "node_modules" ∨ name = ".next" then n.emptied else n.pruned).kind = n.kind := by
  split
  · cases n <;> rfl
  · cases n <;> simp [pruned, kind]

theorem listing_prunedEntries (entries : List (String × Node)) :
    listing (prunedEntries entries) = listing entries := by
  simp only [prunedEntries_eq_map, listing, List.map_map, Function.comp_def, kind_pruned]

theorem WellFormed.emptied {n : Node} (h : n.WellFormed) : n.emptied.WellFormed := by
  cases h with
  | file content => exact .file content
  | link target => exact .link target
  | dir => exact .dir List.Pairwise.nil (by simp) (by simp)

theorem WellFormed.pruned {n : Node} (h : n.WellFormed) : n.pruned.WellFormed := by
  induction h with
  | file content => exact .file content
  | link target => exact .link target
  | dir ascending isName below ih =>
    rw [Node.pruned, prunedEntries_eq_map]
    refine .dir (List.pairwise_map.2 ascending) (List.forall_mem_map.2 isName) (List.forall_mem_map.2 ?_)
    intro e he
    dsimp only
    split
    · exact (below e he).emptied
    · exact ih e he

theorem lookup_prunedEntries {name : String} (h : name ≠ "node_modules" ∧ name ≠ ".next")
    (entries : List (String × Node)) :
    (prunedEntries entries).lookup name = (entries.lookup name).map pruned := by
  induction entries with
  | nil => simp [prunedEntries]
  | cons e rest ih =>
    obtain ⟨k, n⟩ := e
    rw [prunedEntries]
    by_cases hk : name = k
    · subst hk
      simp [h]
    · rw [Keyed.lookup_cons_of_ne hk, Keyed.lookup_cons_of_ne hk, ih]

end Disk.Node

namespace Disk

open Selection (Clear)

structure Alike (disk disk' : Disk) (t : String) : Prop where
  inspect : disk.inspect t = disk'.inspect t
  list : disk.list t = disk'.list t
  read : disk.read t = disk'.read t

def Trail.pruned (t : Trail) : Trail :=
  t.map fun e ↦ (e.1, e.2.map Node.pruned)

namespace Node

theorem node?_pruned (root : Node) (t : Trail) : t.pruned.node? root.pruned = (t.node? root).map pruned := by
  cases t <;> rfl

theorem child?_pruned (n? : Option Node) {name : String} (h : name ≠ "node_modules" ∧ name ≠ ".next") :
    child? (n?.map pruned) name = (child? n? name).map pruned := by
  cases n? with
  | none => rfl
  | some n =>
    cases n with
    | file content => simp [pruned, child?]
    | link target => simp [pruned, child?]
    | dir entries => simp [pruned, child?, lookup_prunedEntries h]

theorem trail_pruned (root : Node) {place : Place} (h : Clear place) :
    root.pruned.trail place = (root.trail place).pruned := by
  induction place with
  | nil => rfl
  | cons name place ih =>
    have hname := h name List.mem_cons_self
    simp only [trail, ih h.of_cons, node?_pruned, child?_pruned _ hname]
    rfl

theorem isDirectory_pruned (n? : Option Node) : isDirectory (n?.map pruned) = isDirectory n? := by
  cases n? with
  | none => rfl
  | some n => cases n <;> simp [pruned, isDirectory]

theorem lookup_pruned (n? : Option Node) {name : String} (h : name ≠ "node_modules" ∧ name ≠ ".next") :
    lookup (n?.map pruned) name = (lookup n? name).map pruned := by
  cases n? with
  | none => rfl
  | some n =>
    cases n with
    | file content => simp [pruned, lookup, Except.map]
    | link target => simp [pruned, lookup, Except.map]
    | dir entries =>
      simp only [Option.map_some, pruned, lookup, lookup_prunedEntries h]
      split
      · rfl
      · cases entries.lookup name <;> rfl

theorem take_pruned {root : Node} {here : Trail} (hroot : root.isLinkFree = true)
    (hhere : AllOn (fun n ↦ n.isLinkFree = true) here) {s : String} (hs : s ≠ "node_modules" ∧ s ≠ ".next") :
    (∃ e, root.take here s = .error e ∧ root.pruned.take here.pruned s = .error e) ∨
      ∃ next, root.take here s = .ok (.inl next) ∧ root.pruned.take here.pruned s = .ok (.inl next.pruned) := by
  rw [take, take, node?_pruned, isDirectory_pruned, lookup_pruned _ hs]
  split
  · exact .inl ⟨_, rfl, rfl⟩
  · split
    · exact .inr ⟨_, rfl, rfl⟩
    · split
      · refine .inr ⟨_, rfl, ?_⟩
        rw [Trail.pruned, Trail.pruned, List.map_tail]
      · cases hfound : lookup (here.node? root) s with
        | error e => exact .inl ⟨e, rfl, rfl⟩
        | ok n =>
          have hfree : n.isLinkFree = true :=
            lookup_of_hereditary hereditary_isLinkFree (fun _ ↦ hhere.node? hroot) hfound
          cases n with
          -- the only case in which the two trees could part: a target may lead into an excluded directory
          | link target => cases hfree
          | file content => exact .inr ⟨_, rfl, by simp [Except.map, pruned, Trail.pruned]⟩
          | dir entries => exact .inr ⟨_, rfl, by simp [Except.map, pruned, Trail.pruned]⟩

theorem advance_pruned {root : Node} (hroot : root.isLinkFree = true)
    {jump jump' : Trail → String → List String → Except Reason Trail} {steps : List String}
    (hsteps : Clear steps) {here : Trail} (hhere : AllOn (fun n ↦ n.isLinkFree = true) here) :
    advance root.pruned true jump' here.pruned steps = (advance root true jump here steps).map Trail.pruned := by
  induction steps generalizing here with
  | nil => rfl
  | cons s rest ih =>
    have hs := hsteps s List.mem_cons_self
    rw [advance_cons, advance_cons]
    rcases take_pruned hroot hhere hs with ⟨e, he, he'⟩ | ⟨next, hnext, hnext'⟩
    · rw [he, he']
      rfl
    · rw [hnext, hnext']
      exact ih hsteps.of_cons (allOn_take hereditary_isLinkFree hroot hhere hnext)

section Reach

variable {root : Node} {place : Place} (hroot : root.isLinkFree = true) (hplace : Clear place)

include hroot hplace

theorem resolve_pruned {t : String} (ht : Clear (Path.names t)) :
    root.pruned.resolve true place t = (root.resolve true place t).map Trail.pruned := by
  have hstart : startOf (root.pruned.trail place) t = Trail.pruned (startOf (root.trail place) t) := by
    rw [trail_pruned root hplace, startOf, startOf]
    split
    · rfl
    · rfl
  rw [resolve, resolve, hstart]
  split
  · rfl
  · split
    · rfl
    · split
      · rfl
      · apply advance_pruned hroot ht.steps
        exact (allOn_trail hereditary_isLinkFree hroot place).startOf t

theorem reach_pruned {t : String} (ht : Clear (Path.names t)) :
    root.pruned.reach place t = (root.reach place t).map fun n? ↦ n?.map pruned := by
  rw [reach, reach, resolve_pruned hroot hplace ht]
  cases root.resolve true place t with
  | error e => rfl
  | ok here => exact congrArg Except.ok (node?_pruned root here)

theorem Proper.pruned {t : String} (h : root.Proper place t) (ht : Clear (Path.names t)) :
    root.pruned.Proper place t where
  wellFormed n hn := by
    rw [reach_pruned hroot hplace ht] at hn
    match hreach : root.reach place t, hn with
    | .ok (some m), hn =>
      cases hn
      exact (h.wellFormed m hreach).pruned

theorem alike_pruned {t : String} (ht : Clear (Path.names t)) :
    Alike (root.pruned.disk place) (root.disk place) t := by
  have hreach := reach_pruned hroot hplace ht
  constructor
  all_goals
    simp only [disk, hreach]
    cases root.reach place t with
    | error e => rfl
    | ok n? =>
      cases n? with
      | none => rfl
      | some n => cases n <;> simp [Except.map, pruned, listing_prunedEntries]

end Reach

end Node

end Disk

namespace Walk

open Disk (Node Place)

theorem visit?_of_ne_link {e : Disk.Entry} (h : e.kind ≠ .link) (disk disk' : Disk) (dir : String) :
    visit? disk dir e = visit? disk' dir e := by
  have hdir : isDir disk dir e = isDir disk' dir e := by
    cases hkind : e.kind with
    | directory => simp only [isDir, hkind]
    | regular => simp only [isDir, hkind]
    | link => exact absurd hkind h
  rw [visit?, visit?, hdir]

/-- Once a walk may go as deep as the tree, it is the same however much deeper it may go. -/
theorem below_of_depth_le {root : Node} {place : Place} {t : String} {depth depth' : Nat}
    (h : root.Proper place t) (hdepth : ∀ n, root.reach place t = .ok (some n) → n.depth ≤ depth)
    (hdepth' : ∀ n, root.reach place t = .ok (some n) → n.depth ≤ depth') :
    below (root.disk place) (depth + 1) t = below (root.disk place) (depth' + 1) t := by
  induction depth generalizing depth' t with
  | zero =>
    cases hlist : (root.disk place).list t with
    | error e => simp only [below, hlist]
    | ok listed =>
      obtain ⟨entries, hreach, -⟩ := reach_of_list hlist
      exact absurd (hdepth _ hreach) (by simp [Node.depth])
  | succ depth ih =>
    cases hlist : (root.disk place).list t with
    | error e => simp only [below, hlist]
    | ok listed =>
      obtain ⟨entries, hreach, rfl⟩ := reach_of_list hlist
      have hle := hdepth _ hreach
      have hle' := hdepth' _ hreach
      cases depth' with
      | zero => exact absurd hle' (by simp [Node.depth])
      | succ depth' =>
        rw [below, below, hlist]
        refine congrArg _ (List.flatMap_congr fun d hd ↦ ?_)
        obtain ⟨sub, hmem, -, -⟩ := mem_descends.1 hd
        have hkind : (Node.dir sub).kind ≠ .link := by simp [Node.kind]
        have hlt : (Node.dir sub).depth < (Node.dir entries).depth := Node.depth_lt_depth hmem
        have hsub : ∀ n, root.reach place (Disk.Path.join t d.name) = .ok (some n) → n = .dir sub :=
          fun n ↦ h.eq_of_reach hreach hmem hkind
        apply ih (h.entry hreach hmem hkind)
        · intro n hn
          rw [hsub n hn]
          omega
        · intro n hn
          rw [hsub n hn]
          omega

end Walk

namespace Target

open Selection (Clear)

theorem clear_of_mem_roots : ∀ r ∈ roots, Clear (Disk.Path.names r) := by
  decide +kernel

theorem clear_of_mem_all {disk : Disk} {paths : List String} (hpaths : ∀ p ∈ paths, Clear (Disk.Path.names p))
    {t : String} (h : t ∈ all disk paths) : Clear (Disk.Path.names t) := by
  rw [all] at h
  split at h
  · split at h
    · rw [List.mem_singleton.1 h]
      decide +kernel
    · exact clear_of_mem_roots t (List.mem_of_mem_filter h)
  · exact hpaths t h

theorem entries_congr {disk disk' : Disk} (h : ∀ r ∈ roots, disk.inspect r = disk'.inspect r)
    (paths : List String) : entries disk paths = entries disk' paths := by
  rw [entries, entries]
  congr 1
  exact List.filterMap_congr fun r hr ↦ by rw [isRoot_congr h hr]

end Target

namespace Audit

open Disk (Node Place)
open Selection (Clear)

theorem Step.ofVisit_congr {disk disk' : Disk} {v : Visit}
    (h : ∀ f, v = .file f → Source.check disk f = Source.check disk' f) : ofVisit disk v = ofVisit disk' v := by
  cases v with
  | ignored path => rfl
  | unreadable path error => rfl
  | file f => simp only [ofVisit, Visit.path?, Option.map_some, h f rfl]

theorem Progress.targets_congr {disk disk' : Disk} {targets : List String}
    (h : ∀ t ∈ targets, (Walk.visits disk t).map (Step.ofVisit disk) =
      (Walk.visits disk' t).map (Step.ofVisit disk')) (p : Progress) :
    p.targets disk targets = p.targets disk' targets := by
  induction targets generalizing p with
  | nil => rfl
  | cons t rest ih =>
    have hrest := fun t' ht' ↦ h t' (List.mem_cons_of_mem t ht')
    simp only [targets, target, h t List.mem_cons_self, ih hrest]

section Pruned

variable {root : Node} {place : Place} (hroot : root.isLinkFree = true) (hplace : Clear place)

include hroot hplace

theorem check_pruned {f : String} (hf : Clear (Disk.Path.names f)) :
    Source.check (root.pruned.disk place) f = Source.check (root.disk place) f := by
  simp only [Source.check, Source.lines, (Node.alike_pruned hroot hplace hf).read]

theorem step?_pruned {t name : String} {n : Node} (ht : Clear (Disk.Path.names t))
    (hname : Disk.Path.IsName name) (hn : n.isLinkFree = true) :
    (Walk.visit? (root.pruned.disk place) t ⟨name, n.kind⟩).map (Step.ofVisit (root.pruned.disk place)) =
      (Walk.visit? (root.disk place) t ⟨name, n.kind⟩).map (Step.ofVisit (root.disk place)) := by
  have hkind : n.kind ≠ .link := by
    intro hlink
    cases n with
    | link target => cases hn
    | file content => cases hlink
    | dir entries => cases hlink
  rw [Walk.visit?_of_ne_link hkind (root.pruned.disk place) (root.disk place)]
  refine Option.map_congr fun v hv ↦ Step.ofVisit_congr ?_
  rintro f rfl
  obtain ⟨rfl, -, -, ending⟩ := (Walk.visit?_eq_file_iff hname).1 hv
  exact check_pruned hroot hplace (ht.join hname ending.not_excluded)

theorem steps_below_pruned (depth : Nat) {t : String} (ht : Clear (Disk.Path.names t))
    (h : root.Proper place t) :
    (Walk.below (root.pruned.disk place) depth t).map (Step.ofVisit (root.pruned.disk place)) =
      (Walk.below (root.disk place) depth t).map (Step.ofVisit (root.disk place)) := by
  induction depth generalizing t with
  | zero => simp only [Walk.below, List.map_nil]
  | succ depth ih =>
    rw [Walk.below, Walk.below, (Node.alike_pruned hroot hplace ht).list]
    cases hlist : (root.disk place).list t with
    | error e =>
      rw [List.map_singleton, List.map_singleton, List.singleton_inj]
      apply Step.ofVisit_congr
      intro f hf
      cases hf
    | ok listed =>
      obtain ⟨entries, hreach, rfl⟩ := Walk.reach_of_list hlist
      have hfree := Node.reach_of_hereditary Node.hereditary_isLinkFree hroot hreach
      simp only [List.map_append, List.map_filterMap, List.map_flatMap]
      refine congrArg₂ _ (List.filterMap_congr ?_) (List.flatMap_congr fun d hd ↦ ?_)
      · rw [Node.listing, List.forall_mem_map]
        intro e he
        have hfound := (h.ascending hreach).lookup_eq_some_iff.2 he
        exact step?_pruned hroot hplace ht (h.isName hreach he) (Node.hereditary_isLinkFree _ _ _ hfree hfound)
      · obtain ⟨sub, hmem, -, hclear⟩ := Walk.mem_descends.1 hd
        exact ih (ht.join (h.isName hreach hmem) hclear) (h.entry hreach hmem (by simp [Node.kind]))

theorem steps_visits_pruned {t : String} (ht : Clear (Disk.Path.names t)) (h : root.Proper place t) :
    (Walk.visits (root.pruned.disk place) t).map (Step.ofVisit (root.pruned.disk place)) =
      (Walk.visits (root.disk place) t).map (Step.ofVisit (root.disk place)) := by
  rw [Walk.visits, Walk.visits, (Node.alike_pruned hroot hplace ht).inspect]
  split
  · rw [List.map_singleton, List.map_singleton, List.singleton_inj]
    apply Step.ofVisit_congr
    intro f hf
    cases hf
    exact check_pruned hroot hplace ht
  · -- The trees differ in depth. A walk that may go as deep as both together is the same in each.
    have hdeep : Walk.below (root.disk place) (root.depth + 1) t =
        Walk.below (root.disk place) (root.depth + root.pruned.depth + 1) t :=
      Walk.below_of_depth_le h (fun n ↦ Node.depth_reach)
        fun n hn ↦ Nat.le_add_right_of_le (Node.depth_reach hn)
    have hdeep' : Walk.below (root.pruned.disk place) (root.pruned.depth + 1) t =
        Walk.below (root.pruned.disk place) (root.depth + root.pruned.depth + 1) t :=
      Walk.below_of_depth_le (h.pruned hroot hplace ht) (fun n ↦ Node.depth_reach)
        fun n hn ↦ Nat.le_add_left_of_le (Node.depth_reach hn)
    change (Walk.below _ (root.pruned.depth + 1) t).map _ = (Walk.below _ (root.depth + 1) t).map _
    rw [hdeep, hdeep']
    exact steps_below_pruned hroot hplace _ ht h

theorem scan_pruned (host : Host) {paths : List String} (hpaths : ∀ p ∈ paths, Clear (Disk.Path.names p))
    (hproper : ∀ t ∈ Target.all (root.disk place) paths, root.Proper place t) :
    scan { host with disk := root.pruned.disk place } paths = scan { host with disk := root.disk place } paths := by
  have hinspect : ∀ r ∈ Target.roots, (root.pruned.disk place).inspect r = (root.disk place).inspect r :=
    fun r hr ↦ (Node.alike_pruned hroot hplace (Target.clear_of_mem_roots r hr)).inspect
  simp only [scan, Target.all_congr hinspect, Target.entries_congr hinspect]
  exact Progress.targets_congr
    (fun t ht ↦ steps_visits_pruned hroot hplace (Target.clear_of_mem_all hpaths ht) (hproper t ht)) _

end Pruned

/-- Two trees without links that are the same but for what lies in excluded directories cannot be told apart
by an audit that neither works in such a directory nor is given a path into one. -/
theorem scan_run_eq_of_pruned_eq (host : Host) (root root' : Node) (place : Place) (paths : List String)
    (hlink : root.isLinkFree = true) (hlink' : root'.isLinkFree = true) (hsame : root.pruned = root'.pruned)
    (hplace : Clear place) (hpaths : ∀ p ∈ paths, Clear (Disk.Path.names p))
    (hproper : ∀ t ∈ Target.all (root.disk place) paths, root.Proper place t)
    (hproper' : ∀ t ∈ Target.all (root'.disk place) paths, root'.Proper place t) :
    scan { host with disk := root.disk place } paths = scan { host with disk := root'.disk place } paths ∧
      run { host with disk := root.disk place } paths = run { host with disk := root'.disk place } paths := by
  have hscan : scan { host with disk := root.disk place } paths =
      scan { host with disk := root'.disk place } paths := by
    rw [← scan_pruned hlink hplace host hpaths hproper, ← scan_pruned hlink' hplace host hpaths hproper', hsame]
  refine ⟨hscan, ?_⟩
  simp only [run, report, Host.write, hscan]

theorem scan_run_eq_of_pruned_eq_nested :
    let tree : List (String × Node) → Node := fun inner ↦ .dir [("web", .dir [(".next", .dir inner),
      ("src", .dir [("a.ts", .file "top: 5px".toUTF8), ("node_modules", .dir inner)])])]
    let root := tree [("b.css", .file "top: 7px".toUTF8)]
    let root' := tree [("lib", .dir [(".next", .dir [("c.ts", .file .empty)])])]
    root.depth ≠ root'.depth ∧
      run { disk := root.disk ["web"] } [] = run { disk := root'.disk ["web"] } [] ∧
      ((scan { disk := root.disk ["web"] } []).reports.get? "src/a.ts").isSome := by
  intro tree root root'
  have hroot : root.WellFormed := by decide +kernel
  have hroot' : root'.WellFormed := by decide +kernel
  refine ⟨by decide +kernel, ?_, by decide +kernel⟩
  have hsame : root.pruned = root'.pruned := by
    simp [root, root', tree, Node.pruned, Node.prunedEntries, Node.emptied]
  exact (scan_run_eq_of_pruned_eq { disk := root.disk ["web"] } root root' ["web"] [] (by decide +kernel)
    (by decide +kernel) hsame (by decide) (by simp) (fun t _ ↦ hroot.proper _ t) fun t _ ↦ hroot'.proper _ t).2

end Audit

end FrontendAudit
