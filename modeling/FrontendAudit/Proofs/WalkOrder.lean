import FrontendAudit.Disk.Basic
import FrontendAudit.Proofs.Bytes
import FrontendAudit.Proofs.Walk
import Mathlib.Data.List.Basic

namespace FrontendAudit.Walk

open Disk (Node Place)
open Disk.Path (IsName join under)

mutual

/-- The walk of a directory: the paths whose listing it asks for, in order, and its visits. -/
inductive Walked (disk : Disk) : String → List String → List Visit → Prop
  | unreadable {dir : String} {e : Disk.Error} (list : disk.list dir = .error e) :
      Walked disk dir [dir] [.unreadable dir e]
  | entered {dir : String} {entries : List Disk.Entry} {asked : List String} {visits : List Visit}
      (list : disk.list dir = .ok entries)
      (subdirectories : WalkedAll disk ((entries.filter descends).map fun e ↦ join dir e.name) asked visits) :
      Walked disk dir (dir :: asked) (entries.filterMap (visit? disk dir) ++ visits)

inductive WalkedAll (disk : Disk) : List String → List String → List Visit → Prop
  | nil : WalkedAll disk [] [] []
  | cons {dir : String} {dirs asked asked' : List String} {visits visits' : List Visit}
      (first : Walked disk dir asked visits) (rest : WalkedAll disk dirs asked' visits') :
      WalkedAll disk (dir :: dirs) (asked ++ asked') (visits ++ visits')

end

inductive Searched (disk : Disk) (t : String) : List String → List Visit → Prop
  | regular (inspect : disk.inspect t = .ok .regular) : Searched disk t [] [.file t]
  | walked {asked : List String} {visits : List Visit} (inspect : disk.inspect t ≠ .ok .regular)
      (walked : Walked disk t asked visits) : Searched disk t asked visits

/-- The order of the paths below a target. Where two paths first differ, one that ends there comes before
one that goes on; if both end or both go on, the bytes of the names decide. A path and one that goes on from
it are not compared. -/
def Precedes : List String → List String → Prop
  | a :: p, b :: q =>
    if a = b then Precedes p q
    else if p = [] ↔ q = [] then Text.bytes a < Text.bytes b
    else p = []
  | _, _ => False

theorem Precedes.irrefl (p : List String) : ¬Precedes p p := by
  induction p with
  | nil => exact id
  | cons a p ih => rwa [Precedes, if_pos rfl]

theorem Precedes.cons (a : String) {p q : List String} (h : Precedes p q) : Precedes (a :: p) (a :: q) := by
  rwa [Precedes, if_pos rfl]

theorem precedes_of_lt {a b : String} {p q : List String} (h : a < b) (hends : p = [] ↔ q = []) :
    Precedes (a :: p) (b :: q) := by
  have hne : a ≠ b := fun heq ↦ String.lt_irrefl b (heq ▸ h)
  rw [Precedes, if_neg hne, if_pos hends]
  exact Text.bytes_lt_iff.2 h

theorem precedes_of_ends {a b : String} {q : List String} (h : a ≠ b) (hq : q ≠ []) :
    Precedes [a] (b :: q) := by
  rw [Precedes, if_neg h, if_neg (by simpa using hq)]

theorem walkedAll_flatMap {disk : Disk} {dir : String} {l : List Disk.Entry} {asked : Disk.Entry → List String}
    {visits : Disk.Entry → List Visit} (h : ∀ e ∈ l, Walked disk (join dir e.name) (asked e) (visits e)) :
    WalkedAll disk (l.map fun e ↦ join dir e.name) (l.flatMap asked) (l.flatMap visits) := by
  induction l with
  | nil => exact .nil
  | cons e rest ih =>
    obtain ⟨hfirst, hrest⟩ := List.forall_mem_cons.1 h
    exact .cons hfirst (ih hrest)

def gather (disk : Disk) (own : String → List (List String)) : Nat → String → List (List String)
  | 0, _ => []
  | depth + 1, dir =>
    own dir ++
      match disk.list dir with
      | .error _ => []
      | .ok entries => (entries.filter descends).flatMap fun e ↦
          (gather disk own depth (join dir e.name)).map (e.name :: ·)

def dirsBelow (disk : Disk) : Nat → String → List (List String) :=
  gather disk fun _ ↦ [[]]

def handed (disk : Disk) (dir : String) (e : Disk.Entry) : Bool :=
  !isDir disk dir e && Selection.isTarget e.name

def ownFiles (disk : Disk) (dir : String) : List (List String) :=
  match disk.list dir with
  | .error _ => []
  | .ok entries => (entries.filter (handed disk dir)).map fun e ↦ [e.name]

def filesBelow (disk : Disk) : Nat → String → List (List String) :=
  gather disk (ownFiles disk)

theorem map_under_branches (dir : String) {l : List Disk.Entry} (h : ∀ e ∈ l, IsName e.name)
    (branch : Disk.Entry → List (List String)) :
    (l.flatMap fun e ↦ (branch e).map (e.name :: ·)).map (under dir) =
      l.flatMap fun e ↦ (branch e).map (under (join dir e.name)) := by
  rw [List.map_flatMap]
  refine List.flatMap_congr fun e he ↦ ?_
  rw [List.map_map]
  exact List.map_congr_left fun p _ ↦ Disk.Path.under_cons dir (h e he) p

theorem pairwise_branches {R : List String → List String → Prop} {l : List Disk.Entry}
    {branch : Disk.Entry → List (List String)} (hcons : ∀ (a : String) {p q}, R p q → R (a :: p) (a :: q))
    (hbranch : ∀ e ∈ l, (branch e).Pairwise R)
    (h : l.Pairwise fun d e ↦ ∀ p ∈ branch d, ∀ q ∈ branch e, R (d.name :: p) (e.name :: q)) :
    (l.flatMap fun e ↦ (branch e).map (e.name :: ·)).Pairwise R := by
  refine List.pairwise_flatMap.2 ⟨fun e he ↦ List.pairwise_map.2 ((hbranch e he).imp (hcons e.name)), ?_⟩
  refine h.imp fun hde x hx y hy ↦ ?_
  obtain ⟨p, hp, rfl⟩ := List.mem_map.1 hx
  obtain ⟨q, hq, rfl⟩ := List.mem_map.1 hy
  exact hde p hp q hq

theorem files_of_entries (disk : Disk) (dir : String) (entries : List Disk.Entry) :
    (entries.filterMap (visit? disk dir)).filterMap Visit.path? =
      ((entries.filter (handed disk dir)).map fun e ↦ [e.name]).map (under dir) := by
  have hvisit : ∀ e, (visit? disk dir e).bind Visit.path? =
      if handed disk dir e then some (under dir [e.name]) else none := by
    intro e
    rw [visit?, handed, Disk.Path.under_singleton]
    cases isDir disk dir e with
    | true => cases Selection.isExcludedDir e.name <;> rfl
    | false => cases Selection.isTarget e.name <;> rfl
  rw [List.filterMap_filterMap]
  induction entries with
  | nil => rfl
  | cons e rest ih =>
    rw [List.filterMap_cons, hvisit, ih]
    cases h : handed disk dir e <;> simp [h]

/-- The disk shows the node at the path: what it lists there is what the node holds, and so on for the
subdirectories. Nothing is said of a path that cannot be listed. -/
inductive Shows (disk : Disk) : String → Node → Prop
  | closed {dir : String} {n : Node} {e : Disk.Error} (list : disk.list dir = .error e) : Shows disk dir n
  | opened {dir : String} {entries : List (String × Node)} (list : disk.list dir = .ok (Node.listing entries))
      (ascending : Keyed.Ascending entries) (isName : ∀ e ∈ entries, IsName e.1)
      (below : ∀ name entries', (name, .dir entries') ∈ entries → Shows disk (join dir name) (.dir entries')) :
      Shows disk dir (.dir entries)

section Shown

variable {disk : Disk} {t : String} {n : Node} {entries : List (String × Node)} {depth : Nat}
variable {own : String → List (List String)}

theorem gather_of_error {e : Disk.Error} (h : disk.list t = .error e) :
    gather disk own (depth + 1) t = own t := by
  simp [gather, h]

theorem gather_of_ok (h : disk.list t = .ok (Node.listing entries)) :
    gather disk own (depth + 1) t =
      own t ++ ((Node.listing entries).filter descends).flatMap fun e ↦
        (gather disk own depth (join t e.name)).map (e.name :: ·) := by
  rw [gather, h]

theorem below_of_ok (h : disk.list t = .ok (Node.listing entries)) :
    below disk (depth + 1) t =
      (Node.listing entries).filterMap (visit? disk t) ++
        ((Node.listing entries).filter descends).flatMap fun e ↦ below disk depth (join t e.name) := by
  rw [below, h]

/-- Induction along the directories that the walk of a shown node enters, together with the depth left. -/
theorem Shows.walk_induction {motive : Nat → String → Node → Prop} (h : Shows disk t n) (depth : Nat)
    (stopped : ∀ dir n, motive 0 dir n)
    (closed : ∀ depth dir n e, disk.list dir = .error e → motive (depth + 1) dir n)
    (opened : ∀ depth dir entries, disk.list dir = .ok (Node.listing entries) → Keyed.Ascending entries →
      (∀ e ∈ entries, IsName e.1) →
      (∀ e ∈ (Node.listing entries).filter descends,
        ∃ below, (e.name, .dir below) ∈ entries ∧ motive depth (join dir e.name) (.dir below)) →
      motive (depth + 1) dir (.dir entries)) : motive depth t n := by
  induction h generalizing depth with
  | closed list =>
    cases depth with
    | zero => exact stopped _ _
    | succ depth => exact closed depth _ _ _ list
  | opened list ascending isName _ ih =>
    cases depth with
    | zero => exact stopped _ _
    | succ depth =>
      refine opened depth _ _ list ascending isName fun e he ↦ ?_
      obtain ⟨below, hmem, -⟩ := mem_descends.1 he
      exact ⟨below, hmem, ih e.name below hmem depth⟩

theorem isName_of_descends (isName : ∀ e ∈ entries, IsName e.1) :
    ∀ e ∈ (Node.listing entries).filter descends, IsName e.name := by
  intro e he
  obtain ⟨below, hmem, -⟩ := mem_descends.1 he
  exact isName _ hmem

theorem pairwise_descends (ascending : Keyed.Ascending entries) :
    ((Node.listing entries).filter descends).Pairwise fun d e ↦ d.name < e.name :=
  List.Pairwise.filter _ (List.pairwise_map.2 ascending)

theorem walked_below (h : Shows disk t n) (hdepth : n.depth < depth) :
    Walked disk t ((dirsBelow disk depth t).map (under t)) (below disk depth t) := by
  revert hdepth
  refine h.walk_induction (motive := fun depth t n ↦ n.depth < depth →
    Walked disk t ((dirsBelow disk depth t).map (under t)) (below disk depth t)) depth ?_ ?_ ?_
  · intro dir n hdepth
    omega
  · intro depth dir n e list _
    rw [dirsBelow, gather_of_error list, below, list]
    exact .unreadable list
  · intro depth dir entries list _ isName ih hdepth
    rw [dirsBelow, gather_of_ok list, below_of_ok list, List.map_append,
      map_under_branches _ (isName_of_descends isName)]
    refine .entered list (walkedAll_flatMap fun e he ↦ ?_)
    obtain ⟨inner, hmem, hwalked⟩ := ih e he
    have hlt : (Node.dir inner).depth < (Node.dir entries).depth := Node.depth_lt_depth hmem
    exact hwalked (by omega)

theorem files_below_eq (h : Shows disk t n) :
    (below disk depth t).filterMap Visit.path? = (filesBelow disk depth t).map (under t) := by
  refine h.walk_induction (motive := fun depth t _ ↦
    (below disk depth t).filterMap Visit.path? = (filesBelow disk depth t).map (under t)) depth ?_ ?_ ?_
  · intro dir n
    rfl
  · intro depth dir n e list
    rw [files_below_of_error list, filesBelow, gather_of_error list, ownFiles, list]
    rfl
  · intro depth dir entries list _ isName ih
    rw [filesBelow, gather_of_ok list, below_of_ok list, List.filterMap_append, List.map_append,
      map_under_branches _ (isName_of_descends isName), files_of_entries, ownFiles, list, List.filterMap_flatMap]
    refine congrArg _ (List.flatMap_congr fun e he ↦ ?_)
    obtain ⟨inner, -, hfiles⟩ := ih e he
    exact hfiles

theorem isName_of_mem_gather (h : Shows disk t n)
    (hown : ∀ dir, (∀ listed, disk.list dir = .ok listed → ∀ e ∈ listed, IsName e.name) →
      ∀ p ∈ own dir, ∀ name ∈ p, IsName name) :
    ∀ p ∈ gather disk own depth t, ∀ name ∈ p, IsName name := by
  refine h.walk_induction (motive := fun depth t _ ↦ ∀ p ∈ gather disk own depth t, ∀ name ∈ p, IsName name)
    depth ?_ ?_ ?_
  · intro dir n
    simp [gather]
  · intro depth dir n e list
    rw [gather_of_error list]
    refine hown dir fun listed hlisted ↦ ?_
    simp [list] at hlisted
  · intro depth dir entries list _ isName ih p hp
    rw [gather_of_ok list] at hp
    rcases List.mem_append.1 hp with hp | hp
    · refine hown dir (fun listed hlisted e he ↦ ?_) p hp
      obtain rfl : Node.listing entries = listed := Except.ok.inj (list.symm.trans hlisted)
      obtain ⟨e, hmem, rfl⟩ := List.mem_map.1 he
      exact isName e hmem
    · obtain ⟨e, he, hp⟩ := List.mem_flatMap.1 hp
      obtain ⟨q, hq, rfl⟩ := List.mem_map.1 hp
      obtain ⟨inner, hmem, hnames⟩ := ih e he
      exact List.forall_mem_cons.2 ⟨isName _ hmem, hnames q hq⟩

theorem isName_of_mem_dirsBelow (h : Shows disk t n) : ∀ p ∈ dirsBelow disk depth t, ∀ name ∈ p, IsName name :=
  isName_of_mem_gather h (by simp)

theorem isName_of_mem_filesBelow (h : Shows disk t n) :
    ∀ p ∈ filesBelow disk depth t, ∀ name ∈ p, IsName name := by
  refine isName_of_mem_gather h fun dir hlisted p hp ↦ ?_
  rw [ownFiles] at hp
  split at hp
  · cases hp
  · next entries list =>
    obtain ⟨e, he, rfl⟩ := List.mem_map.1 hp
    simpa using hlisted entries list e (List.mem_filter.1 he).1

theorem nodup_dirsBelow (h : Shows disk t n) : (dirsBelow disk depth t).Nodup := by
  refine h.walk_induction (motive := fun depth t _ ↦ (dirsBelow disk depth t).Nodup) depth ?_ ?_ ?_
  · intro dir n
    exact List.nodup_nil
  · intro depth dir n e list
    rw [dirsBelow, gather_of_error list]
    exact List.pairwise_singleton _ _
  · intro depth dir entries list ascending _ ih
    rw [dirsBelow, gather_of_ok list]
    refine List.nodup_cons.2 ⟨by simp, pairwise_branches ?_ ?_ ?_⟩
    · intro a p q hne heq
      exact hne (List.cons.inj heq).2
    · intro e he
      obtain ⟨inner, -, hnodup⟩ := ih e he
      exact hnodup
    · refine (pairwise_descends ascending).imp fun hlt p _ q _ heq ↦ ?_
      rw [(List.cons.inj heq).1] at hlt
      exact String.lt_irrefl _ hlt

theorem ne_nil_of_mem_filesBelow {p : List String} (h : p ∈ filesBelow disk depth t) : p ≠ [] := by
  intro hp
  subst hp
  cases depth with
  | zero => cases h
  | succ depth =>
    rw [filesBelow, gather, ownFiles] at h
    split at h <;> simp at h

theorem name_ne_of_handed (ascending : Keyed.Ascending entries) {d e : Disk.Entry}
    (hd : d ∈ (Node.listing entries).filter (handed disk t)) (he : e ∈ (Node.listing entries).filter descends) :
    d.name ≠ e.name := by
  intro heq
  obtain ⟨inner, hmem, -⟩ := mem_descends.1 he
  obtain ⟨hd, hhanded⟩ := List.mem_filter.1 hd
  obtain ⟨⟨name, m⟩, hmem', rfl⟩ := List.mem_map.1 hd
  rw [← heq, ← ascending.lookup_eq_some_iff, ascending.lookup_eq_some_iff.2 hmem'] at hmem
  obtain rfl : m = .dir inner := Option.some.inj hmem
  simp [handed, isDir, Node.kind] at hhanded

theorem pairwise_filesBelow (h : Shows disk t n) : (filesBelow disk depth t).Pairwise Precedes := by
  refine h.walk_induction (motive := fun depth t _ ↦ (filesBelow disk depth t).Pairwise Precedes) depth ?_ ?_ ?_
  · intro dir n
    exact List.Pairwise.nil
  · intro depth dir n e list
    rw [filesBelow, gather_of_error list, ownFiles, list]
    exact List.Pairwise.nil
  · intro depth dir entries list ascending _ ih
    rw [filesBelow, gather_of_ok list, ownFiles, list]
    refine List.pairwise_append.2 ⟨?_, pairwise_branches Precedes.cons ?_ ?_, ?_⟩
    · refine List.pairwise_map.2 (List.Pairwise.filter _ (List.pairwise_map.2 (ascending.imp ?_)))
      intro a b hlt
      exact precedes_of_lt hlt Iff.rfl
    · intro e he
      obtain ⟨inner, -, hordered⟩ := ih e he
      exact hordered
    · refine (pairwise_descends ascending).imp fun hlt p hp q hq ↦ precedes_of_lt hlt ?_
      exact iff_of_false (ne_nil_of_mem_filesBelow hp) (ne_nil_of_mem_filesBelow hq)
    · -- a file of the directory itself comes before all that is found further down
      intro p hp q hq
      obtain ⟨d, hd, rfl⟩ := List.mem_map.1 hp
      obtain ⟨e, he, hq⟩ := List.mem_flatMap.1 hq
      obtain ⟨rest, hrest, rfl⟩ := List.mem_map.1 hq
      exact precedes_of_ends (name_ne_of_handed ascending hd he) (ne_nil_of_mem_filesBelow hrest)

theorem inside_of_mem_dirsBelow (h : Shows disk t n) :
    ∀ p ∈ dirsBelow disk depth t, p ≠ [] → ∃ entries, n.at? p.reverse = some (.dir entries) := by
  refine h.walk_induction (motive := fun depth t n ↦ ∀ p ∈ dirsBelow disk depth t, p ≠ [] →
    ∃ entries, n.at? p.reverse = some (.dir entries)) depth ?_ ?_ ?_
  · intro dir n p hp
    cases hp
  · intro depth dir n e list p hp hne
    rw [dirsBelow, gather_of_error list] at hp
    exact absurd (List.mem_singleton.1 hp) hne
  · intro depth dir entries list ascending _ ih p hp hne
    rw [dirsBelow, gather_of_ok list] at hp
    rcases List.mem_cons.1 hp with hp | hp
    · exact absurd hp hne
    · obtain ⟨e, he, hp⟩ := List.mem_flatMap.1 hp
      obtain ⟨q, hq, rfl⟩ := List.mem_map.1 hp
      obtain ⟨inner, hmem, hinside⟩ := ih e he
      rw [Node.at?_reverse_cons, ascending.lookup_eq_some_iff.2 hmem]
      by_cases hrest : q = []
      · subst hrest
        exact ⟨inner, rfl⟩
      · exact hinside q hq hrest

theorem nodup_map_under {l : List (List String)} (hname : ∀ p ∈ l, ∀ name ∈ p, IsName name) (h : l.Nodup) :
    (l.map (under t)).Nodup := by
  refine List.pairwise_map.2 (List.Pairwise.imp_of_mem (fun hp hq hne heq ↦ ?_) h)
  exact hne (Disk.Path.under_injective (hname _ hp) (hname _ hq) heq)

end Shown

section Faults

variable {root : Node} {place : Place} {faults : List Disk.Fault} {t : String} {n : Node} {here : Disk.Trail}

theorem exists_reach_of_list {listed : List Disk.Entry}
    (h : ((root.disk place).withFaults faults).list t = .ok listed) :
    ∃ entries, root.reach place t = .ok (some (.dir entries)) ∧ listed = Node.listing entries := by
  simp only [Disk.withFaults] at h
  split at h
  · cases h
  · exact reach_of_list h

theorem shows_of_unlisted {disk : Disk} (h : ∀ listed, disk.list t ≠ .ok listed) : Shows disk t n := by
  cases hlist : disk.list t with
  | error e => exact .closed hlist
  | ok listed => exact absurd hlist (h listed)

theorem shows_of_reach (hwf : n.WellFormed) (hreach : root.reach place t = .ok (some n)) :
    Shows ((root.disk place).withFaults faults) t n := by
  induction hwf generalizing t with
  | file content =>
    refine shows_of_unlisted fun listed hlist ↦ ?_
    obtain ⟨entries, hdir, -⟩ := exists_reach_of_list hlist
    simp [hreach] at hdir
  | link target =>
    refine shows_of_unlisted fun listed hlist ↦ ?_
    obtain ⟨entries, hdir, -⟩ := exists_reach_of_list hlist
    simp [hreach] at hdir
  | @dir entries ascending isName _ ih =>
    cases hlist : ((root.disk place).withFaults faults).list t with
    | error e => exact .closed hlist
    | ok listed =>
      obtain ⟨entries', hdir, rfl⟩ := exists_reach_of_list hlist
      obtain rfl : entries = entries' := by simpa [hreach] using hdir
      refine .opened hlist ascending isName fun name below hmem ↦ ?_
      have hfound := ascending.lookup_eq_some_iff.2 hmem
      by_cases hlisted : ∃ listed, ((root.disk place).withFaults faults).list (join t name) = .ok listed
      · obtain ⟨listed, hlisted⟩ := hlisted
        obtain ⟨below', hsub, -⟩ := exists_reach_of_list hlisted
        rw [Node.eq_of_reach_join hreach (isName _ hmem) hfound (by simp [Node.kind]) hsub] at hsub
        exact ih _ hmem hsub
      · exact shows_of_unlisted (not_exists.1 hlisted)

theorem exists_shown (faults : List Disk.Fault) (h : root.Proper place t) :
    ∃ n, Shows ((root.disk place).withFaults faults) t n ∧ n.depth ≤ root.depth ∧
      ∀ depth, ∀ p ∈ dirsBelow ((root.disk place).withFaults faults) depth t, p ≠ [] →
        root.reach place t = .ok (some n) := by
  cases hlist : ((root.disk place).withFaults faults).list t with
  | error e =>
    refine ⟨root, .closed hlist, Nat.le_refl _, fun depth p hp hne ↦ ?_⟩
    cases depth with
    | zero => cases hp
    | succ depth =>
      rw [dirsBelow, gather_of_error hlist] at hp
      exact absurd (List.mem_singleton.1 hp) hne
  | ok listed =>
    obtain ⟨entries, hreach, -⟩ := exists_reach_of_list hlist
    exact ⟨_, shows_of_reach (h.wellFormed _ hreach) hreach, Node.depth_reach hreach, fun _ _ _ _ ↦ hreach⟩

theorem places_ne {p q : List String} (h : root.Proper place t) (hreach : root.reach place t = .ok (some n))
    (hp : p ≠ [] → ∃ entries, n.at? p.reverse = some (.dir entries))
    (hq : q ≠ [] → ∃ entries, n.at? q.reverse = some (.dir entries)) (hne : p ≠ q) {there : Disk.Trail}
    (hhere : root.resolve true place (under t p) = .ok here)
    (hthere : root.resolve true place (under t q) = .ok there) : here.place ≠ there.place := by
  obtain ⟨start, hres, hnode⟩ := Node.exists_trail_of_reach hreach
  rw [Node.place_of_resolve_under h hres hnode hp hhere, Node.place_of_resolve_under h hres hnode hq hthere]
  intro heq
  exact hne (List.reverse_injective (List.append_cancel_right heq))

end Faults

/-- Whatever the links and faults, the search of a target comes to an end. It asks for no listing twice, no two
of the paths it asks for lead to the same place, and below the target it goes through real directories
only. The files that it hands out are in strict order, so none comes twice. -/
theorem search_strictly_ordered (root : Node) (place : Place) (faults : List Disk.Fault) (t : String)
    (hproper : root.Proper place t) :
    let disk := (root.disk place).withFaults faults
    ∃ dirs paths : List (List String),
      Searched disk t (dirs.map (under t)) (visits disk t) ∧
      (dirs.map (under t)).Nodup ∧
      (dirs.map (under t)).Pairwise (fun p q ↦ ∀ here there, root.resolve true place p = .ok here →
        root.resolve true place q = .ok there → here.place ≠ there.place) ∧
      (∀ p ∈ dirs, p ≠ [] → ∃ here entries, root.reach place t = .ok (some here) ∧
        here.at? p.reverse = some (.dir entries)) ∧
      files disk t = paths.map (under t) ∧
      paths.Pairwise Precedes ∧
      (files disk t).Nodup := by
  intro disk
  by_cases hregular : disk.inspect t = .ok .regular
  · refine ⟨[], [[]], ?_, List.nodup_nil, List.Pairwise.nil, by simp, ?_, List.pairwise_singleton _ _, ?_⟩
    · rw [visits, hregular]
      exact .regular hregular
    · rw [files, visits, hregular]
      rfl
    · rw [files, visits, hregular]
      exact List.pairwise_singleton _ _
  · have hvisits : visits disk t = below disk (root.depth + 1) t := by
      rw [visits]
      split
      · next h => exact absurd h hregular
      · rfl
    obtain ⟨n, hshows, hdepth, hreach⟩ := exists_shown faults hproper
    have hfiles : files disk t = (filesBelow disk (root.depth + 1) t).map (under t) := by
      rw [files, hvisits, files_below_eq hshows]
    refine ⟨dirsBelow disk (root.depth + 1) t, filesBelow disk (root.depth + 1) t, ?_,
      nodup_map_under (isName_of_mem_dirsBelow hshows) (nodup_dirsBelow hshows), ?_, ?_, hfiles,
      pairwise_filesBelow hshows, ?_⟩
    · rw [hvisits]
      exact .walked hregular (walked_below hshows (by omega))
    · refine List.pairwise_map.2 (List.Pairwise.imp_of_mem ?_ (nodup_dirsBelow hshows))
      intro p q hp hq hne here there hhere hthere
      -- two different lists are not both empty, so there is a directory below the target
      have hsome : root.reach place t = .ok (some n) := by
        by_cases hempty : p = []
        · exact hreach _ _ hq fun h ↦ hne (hempty.trans h.symm)
        · exact hreach _ _ hp hempty
      exact places_ne hproper hsome (inside_of_mem_dirsBelow hshows p hp)
        (inside_of_mem_dirsBelow hshows q hq) hne hhere hthere
    · intro p hp hne
      obtain ⟨entries, hat⟩ := inside_of_mem_dirsBelow hshows p hp hne
      exact ⟨n, entries, hreach _ p hp hne, hat⟩
    · rw [hfiles]
      refine nodup_map_under (isName_of_mem_filesBelow hshows) ((pairwise_filesBelow hshows).imp ?_)
      intro p q hlt heq
      exact Precedes.irrefl q (heq ▸ hlt)

theorem search_strictly_ordered_cycle :
    let root : Node := .dir [("src", .dir [("a", .dir [("z.ts", .file .empty)]), ("b.ts", .file .empty),
      ("loop", .link "../src"), ("shut", .dir [("c.ts", .file .empty)])])]
    let disk := (root.disk []).withFaults [⟨.opening, "src/shut", .denied⟩]
    root.Proper [] "src" ∧
      (∃ asked, Searched disk "src" asked (visits disk "src") ∧ asked.Nodup) ∧
      (∃ paths : List (List String), files disk "src" = paths.map (under "src") ∧ paths.Pairwise Precedes) ∧
      files disk "src" = ["src/b.ts", "src/a/z.ts"] := by
  intro root disk
  have hroot : root.WellFormed := by decide +kernel
  have hproper : root.Proper [] "src" := hroot.proper _ _
  obtain ⟨dirs, paths, hsearched, hdirs, -, -, hfiles, hordered, -⟩ :=
    search_strictly_ordered root [] [⟨.opening, "src/shut", .denied⟩] "src" hproper
  exact ⟨hproper, ⟨_, hsearched, hdirs⟩, ⟨paths, hfiles, hordered⟩, by decide +kernel⟩

end FrontendAudit.Walk
