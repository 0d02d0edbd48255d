import FrontendAudit.Proofs.WalkOrder

namespace FrontendAudit

def Visit.site : Visit → String
  | file path => path
  | ignored path => path
  | unreadable path _ => path

namespace Walk

open Disk (Node)
open Disk.Path (IsName join under StrictlyBelow)

section Course

variable {disk : Disk} {t d : String}

theorem Walked.unique {asked : List String} {visits : List Visit} (h : Walked disk t asked visits) :
    ∀ asked' visits', Walked disk t asked' visits' → asked' = asked ∧ visits' = visits := by
  -- the walks of a directory and of its subdirectories are defined together, so one induction is for both
  refine @Walked.rec disk
    (fun dir asked visits _ ↦ ∀ asked' visits', Walked disk dir asked' visits' →
      asked' = asked ∧ visits' = visits)
    (fun dirs asked visits _ ↦ ∀ asked' visits', WalkedAll disk dirs asked' visits' →
      asked' = asked ∧ visits' = visits) ?_ ?_ ?_ ?_ t asked visits h
  · intro dir e list asked' visits' h'
    cases h' with
    | unreadable list' =>
      rw [list] at list'
      cases list'
      exact ⟨rfl, rfl⟩
    | entered list' => simp [list] at list'
  · intro dir entries asked visits list _ ih asked' visits' h'
    cases h' with
    | unreadable list' => simp [list] at list'
    | entered list' subdirectories' =>
      rw [list] at list'
      cases list'
      obtain ⟨rfl, rfl⟩ := ih _ _ subdirectories'
      exact ⟨rfl, rfl⟩
  · intro asked' visits' h'
    cases h'
    exact ⟨rfl, rfl⟩
  · intro dir dirs asked₁ asked₂ visits₁ visits₂ _ _ ihfirst ihrest asked' visits' h'
    cases h' with
    | cons first' rest' =>
      obtain ⟨rfl, rfl⟩ := ihfirst _ _ first'
      obtain ⟨rfl, rfl⟩ := ihrest _ _ rest'
      exact ⟨rfl, rfl⟩

def Lists (disk : Disk) (t d : String) : Prop :=
  ∃ asked visits, Searched disk t asked visits ∧ d ∈ asked

theorem lists_iff {n : Node} (h : Shows disk t n) (hdepth : n.depth ≤ disk.depth) :
    Lists disk t d ↔
      disk.inspect t ≠ .ok .regular ∧ ∃ p ∈ dirsBelow disk (disk.depth + 1) t, under t p = d := by
  have hwalked := walked_below h (Nat.lt_succ_of_le hdepth)
  constructor
  · intro ⟨asked, visits, hsearched, hd⟩
    cases hsearched with
    | regular => cases hd
    | walked hinspect hwalked' =>
      obtain ⟨rfl, -⟩ := hwalked.unique _ _ hwalked'
      exact ⟨hinspect, List.mem_map.1 hd⟩
  · intro ⟨hinspect, hd⟩
    exact ⟨_, _, .walked hinspect hwalked, List.mem_map.2 hd⟩

theorem visits_of_not_regular (h : disk.inspect t ≠ .ok .regular) :
    visits disk t = below disk (disk.depth + 1) t := by
  rw [visits]
  split
  · next hregular => exact absurd hregular h
  · rfl

theorem visits_of_regular (h : disk.inspect t = .ok .regular) : visits disk t = [.file t] := by
  rw [visits, h]

end Course

/-- The second disk differs from the first in one listing, which fails. -/
structure Unlisted (disk disk' : Disk) (d : String) (e : Disk.Error) : Prop where
  inspect : disk'.inspect = disk.inspect
  depth : disk'.depth = disk.depth
  failed : disk'.list d = .error e
  elsewhere : ∀ path, path ≠ d → disk'.list path = disk.list path

theorem visit?_congr {disk disk' : Disk} (h : disk'.inspect = disk.inspect) : visit? disk' = visit? disk := by
  funext dir e
  have hdir : isDir disk' dir e = isDir disk dir e := by simp only [isDir, h]
  rw [visit?, visit?, hdir]

theorem site_of_visit? {disk : Disk} {dir : String} {e : Disk.Entry} {v : Visit}
    (h : visit? disk dir e = some v) : v.site = under dir [e.name] := by
  rw [Disk.Path.under_singleton]
  unfold visit? at h
  split at h
  · split at h
    · cases h
      rfl
    · cases h
  · split at h
    · cases h
      rfl
    · cases h

theorem visit?_of_descends (disk : Disk) (dir : String) {e : Disk.Entry} (h : descends e = true) :
    visit? disk dir e = none := by
  simp only [descends, Bool.and_eq_true, decide_eq_true_eq, Bool.not_eq_true'] at h
  simp [visit?, isDir, h.1, h.2]

section Cut

variable {disk disk' : Disk} {t d : String} {e : Disk.Error} {n : Node} {depth : Nat}

theorem below_of_aside (hcut : Unlisted disk disk' d e) (h : Shows disk t n)
    (haside : ∀ p ∈ dirsBelow disk depth t, under t p ≠ d) : below disk' depth t = below disk depth t := by
  revert haside
  refine h.walk_induction (motive := fun depth t _ ↦ (∀ p ∈ dirsBelow disk depth t, under t p ≠ d) →
    below disk' depth t = below disk depth t) depth ?_ ?_ ?_
  · intro dir n _
    rfl
  · intro depth dir n e' list haside
    rw [dirsBelow, gather_of_error list, List.forall_mem_singleton] at haside
    rw [below, below, hcut.elsewhere dir haside, list]
  · intro depth dir entries list _ isName ih haside
    rw [dirsBelow, gather_of_ok list, List.forall_mem_append, List.forall_mem_singleton] at haside
    obtain ⟨hdir, hbelow⟩ := haside
    rw [below_of_ok list, below_of_ok ((hcut.elsewhere dir hdir).trans list), visit?_congr hcut.inspect]
    refine congrArg _ (List.flatMap_congr fun a ha ↦ ?_)
    obtain ⟨inner, hmem, hinner⟩ := ih a ha
    refine hinner fun p hp ↦ ?_
    rw [← Disk.Path.under_cons dir (isName _ hmem)]
    exact hbelow _ (List.mem_flatMap.2 ⟨a, ha, List.mem_map_of_mem hp⟩)

theorem exists_names_of_mem_below (h : Shows disk t n) :
    ∀ v ∈ below disk depth t, ∃ p, (∀ name ∈ p, IsName name) ∧ v.site = under t p := by
  refine h.walk_induction (motive := fun depth t _ ↦ ∀ v ∈ below disk depth t,
    ∃ p, (∀ name ∈ p, IsName name) ∧ v.site = under t p) depth ?_ ?_ ?_
  · intro dir n v hv
    cases hv
  · intro depth dir n e list v hv
    rw [below, list, List.mem_singleton] at hv
    subst hv
    exact ⟨[], by simp, rfl⟩
  · intro depth dir entries list _ isName ih v hv
    rw [below_of_ok list] at hv
    rcases List.mem_append.1 hv with hv | hv
    · obtain ⟨a, ha, hvisit⟩ := List.mem_filterMap.1 hv
      obtain ⟨entry, hentry, rfl⟩ := List.mem_map.1 ha
      exact ⟨[entry.1], by simpa using isName entry hentry, site_of_visit? hvisit⟩
    · obtain ⟨a, ha, hv⟩ := List.mem_flatMap.1 hv
      obtain ⟨inner, hmem, hinner⟩ := ih a ha
      obtain ⟨p, hp, hsite⟩ := hinner v hv
      refine ⟨a.name :: p, List.forall_mem_cons.2 ⟨isName _ hmem, hp⟩, ?_⟩
      rw [hsite, Disk.Path.under_cons dir (isName _ hmem)]

/-- A visit that is neither about the path `p` below `t` nor about one below it. -/
def Aside (t : String) (p : List String) (v : Visit) : Prop :=
  ∃ q, (∀ name ∈ q, IsName name) ∧ v.site = under t q ∧ ¬p <+: q

theorem Aside.cons {name : String} {p : List String} {v : Visit} (hname : IsName name)
    (h : Aside (join t name) p v) : Aside t (name :: p) v := by
  obtain ⟨q, hq, hsite, hne⟩ := h
  refine ⟨name :: q, List.forall_mem_cons.2 ⟨hname, hq⟩, ?_, ?_⟩
  · rw [hsite, Disk.Path.under_cons t hname]
  · rwa [List.cons_prefix_cons, eq_self, true_and]

/-- Two lists of visits that differ where the walk comes to the path `p` below `t`: the one goes on there, the
other says that it cannot. -/
structure Parted (visits visits' : List Visit) (t : String) (p : List String) (e : Disk.Error)
    (before inside after : List Visit) : Prop where
  all : visits = before ++ inside ++ after
  kept : visits' = before ++ .unreadable (under t p) e :: after
  lost : ∀ f ∈ inside.filterMap Visit.path?, StrictlyBelow (under t p) f
  aside : ∀ v ∈ before ++ after, Aside t p v

theorem strictlyBelow_of_mem_below (h : Shows disk t n) :
    ∀ f ∈ (below disk depth t).filterMap Visit.path?, StrictlyBelow t f := by
  intro f hf
  rw [files_below_eq h] at hf
  obtain ⟨p, hp, rfl⟩ := List.mem_map.1 hf
  have hname := isName_of_mem_filesBelow h p hp
  exact ⟨p, ne_nil_of_mem_filesBelow hp, hname, (Disk.Path.foldl_join t hname).symm⟩

theorem parted_here (h : Shows disk t n) (hlist : disk'.list t = .error e) :
    Parted (below disk (depth + 1) t) (below disk' (depth + 1) t) t [] e [] (below disk (depth + 1) t) [] where
  all := by simp
  kept := by
    rw [below, hlist]
    rfl
  lost := strictlyBelow_of_mem_below h
  aside := by simp

theorem eq_of_name_eq {entries : List (String × Node)} (ascending : Keyed.Ascending entries) {a b : Disk.Entry}
    (ha : a ∈ Node.listing entries) (hb : b ∈ Node.listing entries) (h : a.name = b.name) : a = b := by
  obtain ⟨⟨name, m⟩, hm, rfl⟩ := List.mem_map.1 ha
  obtain ⟨⟨name', m'⟩, hm', rfl⟩ := List.mem_map.1 hb
  obtain rfl : name = name' := h
  rw [← ascending.lookup_eq_some_iff] at hm hm'
  obtain rfl : m = m' := Option.some.inj (hm.symm.trans hm')
  rfl

theorem aside_of_mem_entries {entries : List (String × Node)} (ascending : Keyed.Ascending entries)
    (isName : ∀ e ∈ entries, IsName e.1) {a : Disk.Entry} (ha : a ∈ (Node.listing entries).filter descends)
    (p : List String) : ∀ v ∈ (Node.listing entries).filterMap (visit? disk t), Aside t (a.name :: p) v := by
  intro v hv
  obtain ⟨b, hb, hvisit⟩ := List.mem_filterMap.1 hv
  obtain ⟨ha, hdescends⟩ := List.mem_filter.1 ha
  have hname : IsName b.name := by
    obtain ⟨entry, hentry, rfl⟩ := List.mem_map.1 hb
    exact isName entry hentry
  refine ⟨[b.name], by simpa using hname, site_of_visit? hvisit, fun hprefix ↦ ?_⟩
  obtain rfl : a = b := eq_of_name_eq ascending ha hb (List.cons_prefix_cons.1 hprefix).1
  rw [visit?_of_descends disk t hdescends] at hvisit
  cases hvisit

theorem below_of_name_ne (hcut : Unlisted disk disk' d e) {a b : String} (ha : IsName a) (hb : IsName b)
    (hne : b ≠ a) {p : List String} (hp : ∀ name ∈ p, IsName name) (hd : under t (a :: p) = d)
    (h : Shows disk (join t b) n) :
    below disk' depth (join t b) = below disk depth (join t b) ∧
      ∀ v ∈ below disk depth (join t b), Aside t (a :: p) v := by
  constructor
  · refine below_of_aside hcut h fun q hq heq ↦ hne ?_
    rw [← Disk.Path.under_cons t hb, ← hd] at heq
    have hq := isName_of_mem_dirsBelow h q hq
    have hcons : b :: q = a :: p :=
      Disk.Path.under_injective (List.forall_mem_cons.2 ⟨hb, hq⟩) (List.forall_mem_cons.2 ⟨ha, hp⟩) heq
    exact (List.cons.inj hcons).1
  · intro v hv
    obtain ⟨q, hq, hsite⟩ := exists_names_of_mem_below h v hv
    refine ⟨b :: q, List.forall_mem_cons.2 ⟨hb, hq⟩, ?_, fun hprefix ↦ ?_⟩
    · rw [hsite, Disk.Path.under_cons t hb]
    · exact hne (List.cons_prefix_cons.1 hprefix).1.symm

theorem name_ne_of_mem_append {l₁ l₂ : List Disk.Entry} {a b : Disk.Entry}
    (h : (l₁ ++ a :: l₂).Pairwise fun d e ↦ d.name < e.name) (hb : b ∈ l₁ ++ l₂) : b.name ≠ a.name := by
  obtain ⟨-, hright, hacross⟩ := List.pairwise_append.1 h
  rcases List.mem_append.1 hb with hb | hb
  · exact String.ne_of_lt (hacross b hb a List.mem_cons_self)
  · exact (String.ne_of_lt ((List.pairwise_cons.1 hright).1 b hb)).symm

/-- The visits part further down, and there the path leads through one of the subdirectories. -/
theorem Parted.cons (hcut : Unlisted disk disk' d e) {entries : List (String × Node)}
    (list : disk.list t = .ok (Node.listing entries)) (ascending : Keyed.Ascending entries)
    (isName : ∀ e ∈ entries, IsName e.1)
    (shows : ∀ name entries', (name, .dir entries') ∈ entries → Shows disk (join t name) (.dir entries'))
    {a : Disk.Entry} (ha : a ∈ (Node.listing entries).filter descends) {p : List String}
    (hp : ∀ name ∈ p, IsName name) (hd : under t (a.name :: p) = d) {before inside after : List Visit}
    (h : Parted (below disk depth (join t a.name)) (below disk' depth (join t a.name)) (join t a.name) p e
      before inside after) :
    ∃ before' after', Parted (below disk (depth + 1) t) (below disk' (depth + 1) t) t (a.name :: p) e
      before' inside after' := by
  have hname : IsName a.name := isName_of_descends isName a ha
  have hunder := Disk.Path.under_cons t hname p
  have ht : t ≠ d := by
    intro heq
    have hnil : under t (a.name :: p) = under t [] := hd.trans heq.symm
    exact List.cons_ne_nil _ _
      (Disk.Path.under_injective (List.forall_mem_cons.2 ⟨hname, hp⟩) (by simp) hnil)
  obtain ⟨l₁, l₂, hl⟩ := List.append_of_mem ha
  have hother : ∀ b ∈ l₁ ++ l₂, below disk' depth (join t b.name) = below disk depth (join t b.name) ∧
      ∀ v ∈ below disk depth (join t b.name), Aside t (a.name :: p) v := by
    intro b hb
    have hmem : b ∈ (Node.listing entries).filter descends :=
      hl ▸ ((List.sublist_cons_self a l₂).append_left l₁).subset hb
    obtain ⟨inner, hinner, -⟩ := mem_descends.1 hmem
    refine below_of_name_ne hcut hname (isName _ hinner) ?_ hp hd (shows _ _ hinner)
    exact name_ne_of_mem_append (hl ▸ pairwise_descends ascending) hb
  have haside := h.aside
  rw [List.forall_mem_append] at hother haside
  refine ⟨(Node.listing entries).filterMap (visit? disk t) ++
    l₁.flatMap (fun b ↦ below disk depth (join t b.name)) ++ before,
    after ++ l₂.flatMap (fun b ↦ below disk depth (join t b.name)), ?_, ?_, hunder ▸ h.lost, ?_⟩
  · rw [below_of_ok list, hl, List.flatMap_append, List.flatMap_cons, h.all]
    simp only [List.append_assoc]
  · rw [below_of_ok ((hcut.elsewhere t ht).trans list), visit?_congr hcut.inspect, hl, List.flatMap_append,
      List.flatMap_cons, h.kept, hunder, List.flatMap_congr fun b hb ↦ (hother.1 b hb).1,
      List.flatMap_congr fun b hb ↦ (hother.2 b hb).1]
    simp only [List.append_assoc, List.cons_append]
  · simp only [List.forall_mem_append, List.forall_mem_flatMap]
    exact ⟨⟨⟨aside_of_mem_entries ascending isName ha p, fun b hb ↦ (hother.1 b hb).2⟩,
      fun v hv ↦ (haside.1 v hv).cons hname⟩, fun v hv ↦ (haside.2 v hv).cons hname,
      fun b hb ↦ (hother.2 b hb).2⟩

theorem exists_parted (hcut : Unlisted disk disk' d e) (h : Shows disk t n) {p : List String}
    (hp : p ∈ dirsBelow disk depth t) (hd : under t p = d) :
    ∃ before inside after, Parted (below disk depth t) (below disk' depth t) t p e before inside after := by
  induction h generalizing depth p with
  | closed list =>
    cases depth with
    | zero => cases hp
    | succ depth =>
      rw [dirsBelow, gather_of_error list, List.mem_singleton] at hp
      subst hp hd
      exact ⟨_, _, _, parted_here (n := .dir []) (.closed list) hcut.failed⟩
  | opened list ascending isName shows ih =>
    cases depth with
    | zero => cases hp
    | succ depth =>
      rw [dirsBelow, gather_of_ok list] at hp
      rcases List.mem_cons.1 hp with hp | hp
      · subst hp hd
        exact ⟨_, _, _, parted_here (.opened list ascending isName shows) hcut.failed⟩
      · obtain ⟨a, ha, hp⟩ := List.mem_flatMap.1 hp
        obtain ⟨q, hq, rfl⟩ := List.mem_map.1 hp
        obtain ⟨inner, hmem, -⟩ := mem_descends.1 ha
        have hq' := isName_of_mem_dirsBelow (shows _ _ hmem) q hq
        obtain ⟨before, inside, after, hparted⟩ :=
          ih a.name inner hmem hq ((Disk.Path.under_cons _ (isName _ hmem) q).symm.trans hd)
        obtain ⟨before', after', hparted'⟩ := hparted.cons hcut list ascending isName shows ha hq' hd
        exact ⟨before', inside, after', hparted'⟩

end Cut

def tellsOf (d : String) (x : Log.Entry) : Bool :=
  x.message = "read a directory" ∧ ("path", d) ∈ x.fields

theorem tellsOf_debug_iff {d path text : String} :
    tellsOf d (.debug "read a directory" [("error", text), ("path", path)]) = true ↔ path = d := by
  have hlt : ¬"path" < "error" := by decide
  have hne : "path" ≠ "error" := by decide
  have hfields : (Log.Entry.debug "read a directory" [("error", text), ("path", path)]).fields =
      [("error", text), ("path", path)] := by
    simp only [Log.Entry.debug, Keyed.ofList, List.foldl_cons, List.foldl_nil, Keyed.put, if_neg hlt, if_neg hne]
  rw [tellsOf, decide_eq_true_iff, hfields]
  constructor
  · intro h
    have heq : d = path := by simpa using h.2
    exact heq.symm
  · intro heq
    exact ⟨rfl, by simp [heq]⟩

theorem site_of_tellsOf {d : String} {v : Visit} {x : Log.Entry} (hx : v.entry? = some x)
    (h : tellsOf d x = true) : v.site = d := by
  cases v with
  | file path => cases hx
  | ignored path =>
    cases hx
    simp [tellsOf, Log.Entry.debug] at h
  | unreadable path error =>
    cases hx
    exact tellsOf_debug_iff.1 h

section Loss

variable {visits visits' : List Visit} {t : String} {p : List String} {e : Disk.Error}
variable {before inside after : List Visit}

theorem Aside.not_strictlyBelow {v : Visit} (hp : ∀ name ∈ p, IsName name) (h : Aside t p v) :
    v.site ≠ under t p ∧ ¬StrictlyBelow (under t p) v.site := by
  obtain ⟨q, hq, hsite, hprefix⟩ := h
  rw [hsite]
  constructor
  · intro heq
    exact hprefix (Disk.Path.under_injective hq hp heq ▸ List.prefix_refl p)
  · rw [Disk.Path.strictlyBelow_under_iff hp hq]
    exact fun h ↦ hprefix h.1

theorem site_of_path? {v : Visit} {f : String} (h : v.path? = some f) : v.site = f := by
  cases v with
  | file path => exact Option.some.inj h
  | ignored path => cases h
  | unreadable path error => cases h

theorem Parted.files (h : Parted visits visits' t p e before inside after) (hp : ∀ name ∈ p, IsName name) :
    visits'.filterMap Visit.path? =
      (visits.filterMap Visit.path?).filter fun f ↦ ¬StrictlyBelow (under t p) f := by
  have haside : ∀ l : List Visit, (∀ v ∈ l, Aside t p v) →
      (l.filterMap Visit.path?).filter (fun f ↦ ¬StrictlyBelow (under t p) f) = l.filterMap Visit.path? := by
    intro l hl
    refine List.filter_eq_self.2 fun f hf ↦ ?_
    obtain ⟨v, hv, hpath⟩ := List.mem_filterMap.1 hf
    rw [← site_of_path? hpath]
    simpa using ((hl v hv).not_strictlyBelow hp).2
  have hinside : (inside.filterMap Visit.path?).filter (fun f ↦ ¬StrictlyBelow (under t p) f) = [] :=
    List.filter_eq_nil_iff.2 fun f hf ↦ by simpa using h.lost f hf
  obtain ⟨hbefore, hafter⟩ := List.forall_mem_append.1 h.aside
  rw [h.all, h.kept]
  simp only [List.filterMap_append, List.filter_append, haside before hbefore, haside after hafter, hinside,
    List.append_nil, List.filterMap_cons, Visit.path?]

theorem Parted.logged (h : Parted visits visits' t p e before inside after) (hp : ∀ name ∈ p, IsName name) :
    (visits'.filterMap Visit.entry?).filter (tellsOf (under t p)) =
      [.debug "read a directory" [("error", e.message), ("path", under t p)]] := by
  have haside : ∀ l : List Visit, (∀ v ∈ l, Aside t p v) →
      (l.filterMap Visit.entry?).filter (tellsOf (under t p)) = [] := by
    intro l hl
    refine List.filter_eq_nil_iff.2 fun x hx htells ↦ ?_
    obtain ⟨v, hv, hentry⟩ := List.mem_filterMap.1 hx
    exact ((hl v hv).not_strictlyBelow hp).1 (site_of_tellsOf hentry htells)
  obtain ⟨hbefore, hafter⟩ := List.forall_mem_append.1 h.aside
  rw [h.kept]
  simp only [List.filterMap_append, List.filter_append, haside before hbefore, haside after hafter,
    List.filterMap_cons, Visit.entry?, List.filter_cons, tellsOf_debug_iff.2, if_true, List.nil_append]

end Loss

/-- What the search of a target loses with a directory that cannot be opened: the files below it, and nothing
of their order. The failure is logged once. -/
structure LosesBelow (disk disk' : Disk) (t d : String) (reason : Disk.Reason) : Prop where
  files : files disk' t = (files disk t).filter fun f ↦ ¬StrictlyBelow d f
  logged : ((visits disk' t).filterMap Visit.entry?).filter (tellsOf d) =
    [.debug "read a directory" [("error", "open " ++ d ++ ": " ++ reason.text), ("path", d)]]

section Search

variable {disk disk' : Disk} {t d : String} {reason : Disk.Reason} {n : Node}

theorem losesBelow_of_lists (hcut : Unlisted disk disk' d ⟨.opening, d, reason⟩) (h : Shows disk t n)
    (hdepth : n.depth ≤ disk.depth) (hlists : Lists disk t d) : LosesBelow disk disk' t d reason := by
  obtain ⟨hinspect, p, hp, hd⟩ := (lists_iff h hdepth).1 hlists
  obtain ⟨before, inside, after, hparted⟩ := exists_parted hcut h hp hd
  have hname := isName_of_mem_dirsBelow h p hp
  have hvisits' : visits disk' t = below disk' (disk.depth + 1) t := by
    rw [visits_of_not_regular (hcut.inspect ▸ hinspect), hcut.depth]
  subst hd
  constructor
  · rw [files, files, hvisits', visits_of_not_regular hinspect]
    exact hparted.files hname
  · rw [hvisits', hparted.logged hname]
    rfl

theorem visits_of_not_lists {e : Disk.Error} (hcut : Unlisted disk disk' d e) (h : Shows disk t n)
    (hdepth : n.depth ≤ disk.depth) (hlists : ¬Lists disk t d) : visits disk' t = visits disk t := by
  by_cases hinspect : disk.inspect t = .ok .regular
  · rw [visits_of_regular hinspect, visits_of_regular (hcut.inspect ▸ hinspect)]
  · rw [visits_of_not_regular hinspect, visits_of_not_regular (hcut.inspect ▸ hinspect), hcut.depth]
    refine below_of_aside hcut h fun p hp hd ↦ hlists ?_
    exact (lists_iff h hdepth).2 ⟨hinspect, p, hp, hd⟩

end Search

end Walk

end FrontendAudit
