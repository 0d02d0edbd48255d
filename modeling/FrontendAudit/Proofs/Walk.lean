import FrontendAudit.Proofs.Tree
import FrontendAudit.Walk

namespace FrontendAudit.Walk

open Disk (Node Place)

structure HasEnding (name : String) : Prop where
  selected : ".tsx".toList <:+ name.toList ∨ ".ts".toList <:+ name.toList ∨ ".css".toList <:+ name.toList
  no_declaration : ¬ ".d.ts".toList <:+ name.toList

/-- A file of the directory that the names `dirs` lead to from `here`, the node of the path `t`. Each of
these names is that of a real directory, and the file itself is neither a directory nor a link that leads
to one. -/
inductive Selected (disk : Disk) (here : Node) (t : String) (dirs : List String) (name : String) : Prop
  | intro {entries : List (String × Node)} {node : Node}
      (inside : here.at? dirs.reverse = some (.dir entries))
      (entered : ∀ d ∈ dirs, d ≠ "node_modules" ∧ d ≠ ".next")
      (listed : (name, node) ∈ entries)
      (no_directory : node.kind ≠ .directory)
      (no_directory_link : node.kind = .link →
        disk.inspect (Disk.Path.under t (dirs ++ [name])) ≠ .ok .directory)
      (ending : HasEnding name)

theorem isTarget_iff {name : String} (h : '/' ∉ name.toList) :
    Selection.isTarget name = true ↔ HasEnding name := by
  simp only [Selection.isTarget, Selection.endsIn, Bool.and_eq_true, Bool.or_eq_true, Bool.not_eq_true',
    List.isSuffixOf_iff_suffix, ← Bool.not_eq_true]
  constructor
  · intro htarget
    rcases htarget with ⟨⟨-, hdecl⟩, (htsx | hts) | hcss⟩
    · exact ⟨.inl htsx, hdecl⟩
    · exact ⟨.inr (.inl hts), hdecl⟩
    · exact ⟨.inr (.inr hcss), hdecl⟩
  · intro ⟨hend, hdecl⟩
    refine ⟨⟨by simpa using h, hdecl⟩, ?_⟩
    rcases hend with htsx | hts | hcss
    · exact .inl (.inl htsx)
    · exact .inl (.inr hts)
    · exact .inr hcss

theorem isDir_iff (disk : Disk) (dir name : String) (n : Node) :
    isDir disk dir ⟨name, n.kind⟩ = true ↔
      n.kind = .directory ∨ n.kind = .link ∧ disk.inspect (Disk.Path.join dir name) = .ok .directory := by
  cases n with
  | file content => simp [isDir, Node.kind]
  | dir entries => simp [isDir, Node.kind]
  | link target =>
    simp only [isDir, Node.kind, reduceCtorEq, true_and, false_or]
    split
    · next h => simp [h]
    · next h => simpa using h

theorem isExcludedDir_eq_false_iff {name : String} :
    Selection.isExcludedDir name = false ↔ name ≠ "node_modules" ∧ name ≠ ".next" := by
  simp [Selection.isExcludedDir]

theorem selected_nil_iff {disk : Disk} {entries : List (String × Node)} {t name : String} :
    Selected disk (.dir entries) t [] name ↔
      ∃ node, (name, node) ∈ entries ∧ node.kind ≠ .directory ∧
        (node.kind = .link → disk.inspect (Disk.Path.join t name) ≠ .ok .directory) ∧ HasEnding name := by
  constructor
  · intro h
    obtain ⟨inside, -, listed, hdir, hlink, ending⟩ := h
    cases inside
    rw [List.nil_append, Disk.Path.under_singleton] at hlink
    exact ⟨_, listed, hdir, hlink, ending⟩
  · intro ⟨node, listed, hdir, hlink, ending⟩
    rw [← Disk.Path.under_singleton] at hlink
    exact ⟨rfl, by simp, listed, hdir, hlink, ending⟩

theorem selected_cons_iff {disk : Disk} {entries : List (String × Node)} {t d name : String}
    {dirs : List String} (ascending : Keyed.Ascending entries)
    (isName : ∀ e ∈ entries, Disk.Path.IsName e.1) :
    Selected disk (.dir entries) t (d :: dirs) name ↔
      ∃ below, (d, .dir below) ∈ entries ∧ (d ≠ "node_modules" ∧ d ≠ ".next") ∧
        Selected disk (.dir below) (Disk.Path.join t d) dirs name := by
  constructor
  · intro ⟨inside, entered, listed, hdir, hlink, ending⟩
    rw [Node.at?_reverse_cons, Option.bind_eq_some_iff] at inside
    obtain ⟨n, hfound, inside⟩ := inside
    obtain ⟨below, rfl⟩ := Node.eq_dir_of_at? inside
    have hmem := ascending.lookup_eq_some_iff.1 hfound
    rw [List.cons_append, Disk.Path.under_cons t (isName _ hmem)] at hlink
    exact ⟨below, hmem, entered d List.mem_cons_self, inside,
      fun d' hd' ↦ entered d' (List.mem_cons_of_mem d hd'), listed, hdir, hlink, ending⟩
  · intro ⟨below, hmem, hd, inside, entered, listed, hdir, hlink, ending⟩
    refine ⟨?_, List.forall_mem_cons.2 ⟨hd, entered⟩, listed, hdir, ?_, ending⟩
    · rw [Node.at?_reverse_cons, ascending.lookup_eq_some_iff.2 hmem]
      exact inside
    · rwa [List.cons_append, Disk.Path.under_cons t (isName _ hmem)]

/-- A file below `here`, the node of the path `t`, whose directory has a path that can be listed. -/
def HandsOut (disk : Disk) (here : Node) (t f : String) : Prop :=
  ∃ dirs name, Selected disk here t dirs name ∧ (Disk.Path.under t dirs).utf8ByteSize ≤ Disk.Path.limit ∧
    f = Disk.Path.under t (dirs ++ [name])

theorem not_handsOut_of_long {disk : Disk} {here : Node} {t f : String}
    (h : Disk.Path.limit < t.utf8ByteSize) : ¬HandsOut disk here t f := by
  intro ⟨dirs, _, _, hlimit, _⟩
  have hle := Disk.Path.size_le_size_under t dirs
  omega

theorem handsOut_iff {disk : Disk} {entries : List (String × Node)} {t f : String}
    (ascending : Keyed.Ascending entries) (isName : ∀ e ∈ entries, Disk.Path.IsName e.1)
    (hsize : t.utf8ByteSize ≤ Disk.Path.limit) :
    HandsOut disk (.dir entries) t f ↔
      (∃ name, Selected disk (.dir entries) t [] name ∧ f = Disk.Path.join t name) ∨
        ∃ d below, (d, .dir below) ∈ entries ∧ (d ≠ "node_modules" ∧ d ≠ ".next") ∧
          HandsOut disk (.dir below) (Disk.Path.join t d) f := by
  constructor
  · intro ⟨dirs, name, hsel, hlimit, hf⟩
    cases dirs with
    | nil => exact .inl ⟨name, hsel, hf.trans (Disk.Path.under_singleton t name)⟩
    | cons d dirs =>
      obtain ⟨below, hmem, hd, hsel⟩ := (selected_cons_iff ascending isName).1 hsel
      have hname := isName _ hmem
      rw [Disk.Path.under_cons t hname] at hlimit
      rw [List.cons_append, Disk.Path.under_cons t hname] at hf
      exact .inr ⟨d, below, hmem, hd, dirs, name, hsel, hlimit, hf⟩
  · intro h
    cases h with
    | inl h =>
      obtain ⟨name, hsel, hf⟩ := h
      exact ⟨[], name, hsel, hsize, hf.trans (Disk.Path.under_singleton t name).symm⟩
    | inr h =>
      obtain ⟨d, below, hmem, hd, dirs, name, hsel, hlimit, hf⟩ := h
      have hname := isName _ hmem
      rw [← Disk.Path.under_cons t hname] at hlimit
      rw [← Disk.Path.under_cons t hname] at hf
      exact ⟨d :: dirs, name, (selected_cons_iff ascending isName).2 ⟨below, hmem, hd, hsel⟩, hlimit, hf⟩

theorem visit?_eq_file_iff {disk : Disk} {dir name f : String} {n : Node} (hname : Disk.Path.IsName name) :
    visit? disk dir ⟨name, n.kind⟩ = some (.file f) ↔
      f = Disk.Path.join dir name ∧ n.kind ≠ .directory ∧
        (n.kind = .link → disk.inspect (Disk.Path.join dir name) ≠ .ok .directory) ∧ HasEnding name := by
  have hdir := isDir_iff disk dir name n
  rw [visit?, ← isTarget_iff hname.no_separator]
  cases hisDir : isDir disk dir ⟨name, n.kind⟩ with
  | true =>
    have hexcl : ∀ path, (if Selection.isExcludedDir name then some (Visit.ignored path) else none) ≠
        some (.file f) := by
      intro path
      split <;> simp
    rcases hdir.1 hisDir with hkind | ⟨hkind, hinspect⟩
    · simp [hexcl, hkind]
    · simp [hexcl, hkind, hinspect]
  | false =>
    rw [hisDir] at hdir
    have hnot : n.kind ≠ .directory ∧
        (n.kind = .link → disk.inspect (Disk.Path.join dir name) ≠ .ok .directory) := by
      simpa [not_or] using hdir
    cases htarget : Selection.isTarget name with
    | false => simp
    | true =>
      simp only [Bool.false_eq_true, if_false, if_true, Option.some.injEq, Visit.file.injEq]
      exact ⟨fun h ↦ ⟨h.symm, hnot.1, hnot.2, trivial⟩, fun h ↦ h.1.symm⟩

theorem mem_files_of_entries {disk : Disk} {dir f : String} {entries : List (String × Node)}
    (hname : ∀ e ∈ entries, Disk.Path.IsName e.1) :
    f ∈ ((Node.listing entries).filterMap (visit? disk dir)).filterMap Visit.path? ↔
      ∃ name, Selected disk (.dir entries) dir [] name ∧ f = Disk.Path.join dir name := by
  simp only [List.mem_filterMap, Node.listing, List.mem_map]
  constructor
  · intro h
    obtain ⟨v, ⟨e, ⟨⟨name, n⟩, hmem, rfl⟩, hv⟩, hpath⟩ := h
    obtain ⟨rfl⟩ : v = .file f := by
      cases v <;> simp_all [Visit.path?]
    obtain ⟨hf, hrest⟩ := (visit?_eq_file_iff (hname _ hmem)).1 hv
    exact ⟨name, selected_nil_iff.2 ⟨n, hmem, hrest⟩, hf⟩
  · intro ⟨name, hsel, hf⟩
    obtain ⟨n, hmem, hrest⟩ := selected_nil_iff.1 hsel
    exact ⟨.file f, ⟨⟨name, n.kind⟩, ⟨(name, n), hmem, rfl⟩, (visit?_eq_file_iff (hname _ hmem)).2 ⟨hf, hrest⟩⟩,
      rfl⟩

section Tree

variable {root : Node} {place : Place} {t : String} {entries : List (String × Node)}

theorem list_of_reach (h : root.reach place t = .ok (some (.dir entries))) :
    (root.disk place).list t = .ok (Node.listing entries) := by
  simp only [Node.disk, h]

theorem reach_of_list {listed : List Disk.Entry} (h : (root.disk place).list t = .ok listed) :
    ∃ entries, root.reach place t = .ok (some (.dir entries)) ∧ listed = Node.listing entries := by
  simp only [Node.disk] at h
  split at h
  · next hreach => exact ⟨_, hreach, (Except.ok.inj h).symm⟩
  all_goals cases h

theorem inspect_of_reach (h : root.reach place t = .ok (some (.dir entries))) :
    (root.disk place).inspect t = .ok .directory := by
  simp only [Node.disk, h]

theorem mem_descends {d : Disk.Entry} :
    d ∈ (Node.listing entries).filter descends ↔
      ∃ below, (d.name, .dir below) ∈ entries ∧ d.kind = .directory ∧
        d.name ≠ "node_modules" ∧ d.name ≠ ".next" := by
  simp only [List.mem_filter, Node.listing, List.mem_map, descends, Bool.and_eq_true, decide_eq_true_eq,
    Bool.not_eq_true', isExcludedDir_eq_false_iff]
  constructor
  · intro h
    obtain ⟨⟨⟨name, n⟩, hmem, rfl⟩, hkind, hname⟩ := h
    cases n with
    | dir below => exact ⟨below, hmem, rfl, hname⟩
    | file content => cases hkind
    | link target => cases hkind
  · intro ⟨below, hmem, hkind, hname⟩
    refine ⟨⟨_, hmem, ?_⟩, hkind, hname⟩
    cases d
    simp_all [Node.kind]

theorem files_below_of_error {disk : Disk} {e : Disk.Error} (h : disk.list t = .error e) (depth : Nat) :
    (below disk depth t).filterMap Visit.path? = [] := by
  cases depth with
  | zero => rfl
  | succ depth =>
    rw [below, h]
    rfl

theorem files_below_too_long (root : Node) (place : Place) (h : Disk.Path.limit < t.utf8ByteSize)
    (depth : Nat) : (below (root.disk place) depth t).filterMap Visit.path? = [] := by
  cases hres : root.resolve true place t with
  | ok here =>
    obtain ⟨-, -, hsize, -⟩ := Node.resolve_ok hres
    omega
  | error e =>
    have hlist : (root.disk place).list t = .error ⟨.opening, t, e⟩ := by
      simp [Node.disk, Node.reach, hres, Except.map]
    exact files_below_of_error hlist depth

/-- With enough depth a walk hands out the selected files of all directories whose paths can be listed. -/
theorem mem_below_iff {depth : Nat} (h : root.Proper place t)
    (hreach : root.reach place t = .ok (some (.dir entries))) (hdepth : (Node.dir entries).depth ≤ depth)
    (f : String) :
    f ∈ (below (root.disk place) depth t).filterMap Visit.path? ↔
      HandsOut (root.disk place) (.dir entries) t f := by
  induction depth generalizing t entries with
  | zero => simp [Node.depth] at hdepth
  | succ depth ih =>
    have isName := fun e ↦ @Node.Proper.isName root place t entries h hreach e
    have hsub : ∀ d below, (d, .dir below) ∈ entries →
        (f ∈ (Walk.below (root.disk place) depth (Disk.Path.join t d)).filterMap Visit.path? ↔
          HandsOut (root.disk place) (.dir below) (Disk.Path.join t d) f) := by
      intro d below hmem
      by_cases hsize : (Disk.Path.join t d).utf8ByteSize ≤ Disk.Path.limit
      · have hkind : (Node.dir below).kind ≠ .link := by simp [Node.kind]
        have hlt : (Node.dir below).depth < (Node.dir entries).depth := Node.depth_lt_depth hmem
        exact ih (h.entry hreach hmem hkind) (h.reach_entry hreach hmem hkind hsize) (by omega)
      · -- Such a directory cannot be listed, so neither side has a file of it.
        have hlong : Disk.Path.limit < (Disk.Path.join t d).utf8ByteSize := by omega
        rw [files_below_too_long root place hlong]
        exact iff_of_false List.not_mem_nil (not_handsOut_of_long hlong)
    obtain ⟨here, hres, -⟩ := Node.exists_trail_of_reach hreach
    rw [Walk.below, list_of_reach hreach, handsOut_iff (h.ascending hreach) isName (Node.resolve_ok hres).2.2.1]
    simp only [List.filterMap_append, List.mem_append, mem_files_of_entries isName,
      List.filterMap_flatMap, List.mem_flatMap, mem_descends]
    apply or_congr Iff.rfl
    constructor
    · intro hf
      obtain ⟨d, ⟨below, hmem, -, hd⟩, hf⟩ := hf
      exact ⟨d.name, below, hmem, hd, (hsub d.name below hmem).1 hf⟩
    · intro hf
      obtain ⟨d, below, hmem, hd, hf⟩ := hf
      exact ⟨⟨d, .directory⟩, ⟨below, hmem, rfl, hd⟩, (hsub d below hmem).2 hf⟩

theorem files_of_regular (h : (root.disk place).inspect t = .ok .regular) :
    files (root.disk place) t = [t] := by
  rw [files, visits, h]
  rfl

theorem files_of_not_regular (h : (root.disk place).inspect t ≠ .ok .regular) :
    files (root.disk place) t = (below (root.disk place) (root.depth + 1) t).filterMap Visit.path? := by
  rw [files, visits]
  split
  · next hreg => exact absurd hreg h
  · rfl

theorem files_of_no_listing (h : (root.disk place).inspect t ≠ .ok .regular)
    (hlist : ∀ listed, (root.disk place).list t ≠ .ok listed) : files (root.disk place) t = [] := by
  rw [files_of_not_regular h]
  cases hl : (root.disk place).list t with
  | ok listed => exact absurd hl (hlist listed)
  | error e => exact files_below_of_error hl _

theorem HasEnding.not_excluded {name : String} (h : HasEnding name) :
    name ≠ "node_modules" ∧ name ≠ ".next" := by
  constructor
  · intro hname
    subst hname
    exact absurd h.selected (by decide)
  · intro hname
    subst hname
    exact absurd h.selected (by decide)

theorem mem_files_iff (hproper : root.Proper place t) (h : (root.disk place).inspect t ≠ .ok .regular) (f : String) :
    f ∈ files (root.disk place) t ↔
      ∃ here dirs name, root.reach place t = .ok (some here) ∧
        Selected (root.disk place) here t dirs name ∧
        (Disk.Path.under t dirs).utf8ByteSize ≤ Disk.Path.limit ∧
        f = Disk.Path.under t (dirs ++ [name]) := by
  by_cases hdir : ∃ entries, root.reach place t = .ok (some (.dir entries))
  · obtain ⟨entries, hreach⟩ := hdir
    have hdepth := Node.depth_reach hreach
    rw [files_of_not_regular h, mem_below_iff hproper hreach (by omega)]
    constructor
    · intro hout
      obtain ⟨dirs, name, hsel⟩ := hout
      exact ⟨_, dirs, name, hreach, hsel⟩
    · intro hout
      obtain ⟨here', dirs, name, hreach', hsel⟩ := hout
      rw [hreach] at hreach'
      cases hreach'
      exact ⟨dirs, name, hsel⟩
  · have hnone : files (root.disk place) t = [] := by
      refine files_of_no_listing h fun listed hlisted ↦ ?_
      obtain ⟨entries, hreach, -⟩ := reach_of_list hlisted
      exact hdir ⟨entries, hreach⟩
    rw [hnone]
    constructor
    · intro hf
      cases hf
    · intro hout
      obtain ⟨here, dirs, name, hreach, ⟨inside, -, -, -, -, -⟩, -, -⟩ := hout
      obtain ⟨entries, rfl⟩ := Node.eq_dir_of_at? inside
      exact absurd ⟨entries, hreach⟩ hdir

/-- A regular file is handed out itself. For any other target the files handed out are exactly those below
it that are selected and whose directory has a path that can be listed, so there are none if the target
cannot be listed, and no name below the target is an excluded one. -/
theorem files_exact (root : Node) (place : Place) (t : String) (hproper : root.Proper place t) :
    ((root.disk place).inspect t = .ok .regular → files (root.disk place) t = [t]) ∧
    ((root.disk place).inspect t ≠ .ok .regular →
      (∀ f, f ∈ files (root.disk place) t ↔
        ∃ here dirs name, root.reach place t = .ok (some here) ∧
          Selected (root.disk place) here t dirs name ∧
          (Disk.Path.under t dirs).utf8ByteSize ≤ 4095 ∧
          f = Disk.Path.under t (dirs ++ [name])) ∧
      ((∀ listed, (root.disk place).list t ≠ .ok listed) → files (root.disk place) t = []) ∧
      ∀ f ∈ files (root.disk place) t, ∃ names, names ≠ [] ∧ f = Disk.Path.under t names ∧
        ∀ n ∈ names, n ≠ "node_modules" ∧ n ≠ ".next") := by
  refine ⟨files_of_regular, fun h ↦ ⟨mem_files_iff hproper h, files_of_no_listing h, ?_⟩⟩
  intro f hf
  obtain ⟨here, dirs, name, -, ⟨-, entered, -, -, -, ending⟩, -, rfl⟩ := (mem_files_iff hproper h f).1 hf
  refine ⟨dirs ++ [name], by simp, rfl, ?_⟩
  intro n hn
  rcases List.mem_append.1 hn with hn | hn
  · exact entered n hn
  · rw [List.mem_singleton.1 hn]
    exact ending.not_excluded

theorem files_exact_excluded_target :
    let root : Node := .dir [("node_modules",
      .dir [("lib", .dir [("a.ts", .file .empty), ("node_modules", .dir [("b.ts", .file .empty)])]),
        ("loop.ts", .link "loop.ts"), ("up.ts", .link "..")])]
    (∀ f, f ∈ files (root.disk []) "node_modules" ↔
      ∃ here dirs name, root.reach [] "node_modules" = .ok (some here) ∧
        Selected (root.disk []) here "node_modules" dirs name ∧
        (Disk.Path.under "node_modules" dirs).utf8ByteSize ≤ 4095 ∧
        f = Disk.Path.under "node_modules" (dirs ++ [name])) ∧
      files (root.disk []) "node_modules" = ["node_modules/loop.ts", "node_modules/lib/a.ts"] := by
  intro root
  have hroot : root.WellFormed := by decide +kernel
  have hinspect : ((root.disk []).inspect "node_modules").toOption = some .directory := by decide +kernel
  refine ⟨((files_exact root [] "node_modules" (hroot.proper _ _)).2 ?_).1, by decide +kernel⟩
  intro hregular
  rw [hregular] at hinspect
  cases hinspect

end Tree

section LongPaths

theorem files_of_long_subdirectory {root : Node} {place : Place} {t d : String} {below : List (String × Node)}
    (h : root.Proper place t) (hreach : root.reach place t = .ok (some (.dir [(d, .dir below)])))
    (hlong : Disk.Path.limit < (Disk.Path.join t d).utf8ByteSize) : files (root.disk place) t = [] := by
  refine List.eq_nil_iff_forall_not_mem.2 fun f hf ↦ ?_
  have hdir : (root.disk place).inspect t ≠ .ok .regular := by simp [inspect_of_reach hreach]
  obtain ⟨here, dirs, name, hhere, hsel, hlimit, -⟩ := (mem_files_iff h hdir f).1 hf
  rw [hreach] at hhere
  cases hhere
  cases dirs with
  | nil =>
    obtain ⟨node, hmem, hkind, -⟩ := selected_nil_iff.1 hsel
    obtain ⟨-, rfl⟩ := Prod.mk.inj (List.mem_singleton.1 hmem)
    exact hkind rfl
  | cons d' dirs =>
    obtain ⟨entries, hmem, -, -⟩ := (selected_cons_iff (h.ascending hreach) fun _ ↦ h.isName hreach).1 hsel
    obtain ⟨rfl, -⟩ := Prod.mk.inj (List.mem_singleton.1 hmem)
    have hname : Disk.Path.IsName d' := h.isName hreach hmem
    have hle := Disk.Path.size_le_size_under (Disk.Path.join t d') dirs
    rw [Disk.Path.under_cons t hname] at hlimit
    omega

def repeated (text : String) : Nat → String
  | 0 => ""
  | n + 1 => repeated text n ++ text

theorem size_repeated (text : String) (n : Nat) : (repeated text n).utf8ByteSize = n * text.utf8ByteSize := by
  induction n with
  | zero => simp [repeated]
  | succ n ih => rw [repeated, String.utf8ByteSize_append, ih, Nat.succ_mul]

theorem mem_toList_repeated {text : String} {n : Nat} {c : Char} (h : c ∈ (repeated text n).toList) :
    c ∈ text.toList := by
  induction n with
  | zero => simp [repeated] at h
  | succ n ih =>
    rw [repeated, String.toList_append, List.mem_append] at h
    exact h.elim ih id

theorem names_repeated (text : String) (n : Nat) : Disk.Path.names (text ++ repeated "/" n) = Disk.Path.names text := by
  induction n with
  | zero => rw [repeated, String.append_empty]
  | succ n ih => rw [repeated, ← String.append_assoc, Disk.Path.names_separator, ih]

theorem getLast?_append_repeated (text : String) (n : Nat) :
    (text ++ repeated "/" (n + 1)).toList.getLast? = some '/' := by
  rw [repeated, ← String.append_assoc, String.toList_append]
  exact List.getLast?_concat

/-- However many separators and steps to the directory itself a path is made of, it leads to where it starts. -/
theorem reach_of_here_steps {entries : List (String × Node)} {t : String} (hne : t ≠ "")
    (hzero : '\x00' ∉ t.toList) (hsize : t.utf8ByteSize ≤ Disk.Path.limit)
    (hnames : ∀ name ∈ Disk.Path.names t, name = ".") :
    (Node.dir entries).reach [] t = .ok (some (.dir entries)) := by
  have hsteps : ∀ s ∈ Disk.Path.steps t, s = "." := by
    rw [Disk.Path.steps]
    split
    · exact List.forall_mem_append.2 ⟨hnames, by simp⟩
    · exact hnames
  have hstay : ∀ jump (steps : List String), (∀ s ∈ steps, s = ".") →
      Node.advance (.dir entries) true jump [] steps = .ok [] := by
    intro jump steps h
    induction steps with
    | nil => rfl
    | cons s rest ih =>
      obtain ⟨rfl, hrest⟩ := List.forall_mem_cons.1 h
      exact ih hrest
  have hstart : Node.startOf ((Node.dir entries).trail []) t = [] := by simp [Node.startOf, Node.trail]
  have hres : (Node.dir entries).resolve true [] t = .ok [] := by
    refine Node.resolve_of_follow hne hzero hsize ?_
    rw [hstart]
    exact hstay _ _ hsteps
  exact Node.reach_of_resolve hres rfl

theorem reach_here_repeated (entries : List (String × Node)) {n : Nat} (hn : n + 3 ≤ Disk.Path.limit)
    {last : String} (hlast : last = "" ∨ last = ".") :
    (Node.dir entries).reach [] ("." ++ repeated "/" (n + 1) ++ last) = .ok (some (.dir entries)) := by
  have hchars : last.utf8ByteSize ≤ 1 ∧ '\x00' ∉ last.toList ∧ ∀ name ∈ Disk.Path.names last, name = "." := by
    rcases hlast with rfl | rfl <;> decide +kernel
  obtain ⟨hsize, hzero, hnames⟩ := hchars
  have hdot : ".".utf8ByteSize = 1 := by decide
  have hseparator : "/".utf8ByteSize = 1 := by decide
  refine reach_of_here_steps (by simp) ?_ ?_ ?_
  · intro h
    simp only [String.toList_append, List.mem_append] at h
    rcases h with (h | h) | h
    · exact absurd h (by decide)
    · exact absurd (mem_toList_repeated h) (by decide)
    · exact hzero h
  · rw [String.utf8ByteSize_append, String.utf8ByteSize_append, size_repeated, hdot, hseparator]
    omega
  · have hhere : Disk.Path.names "." = ["."] := by decide +kernel
    rw [repeated, ← String.append_assoc, Disk.Path.names_append_separator, names_repeated, hhere]
    simpa using hnames

def longTarget : String :=
  "." ++ repeated "/" 3999

def longName : String :=
  repeated "d" 200

def longTree : Node :=
  .dir [(longName, .dir [("a.ts", .file .empty)])]

theorem size_longTarget : longTarget.utf8ByteSize = 4000 := by
  rw [longTarget, String.utf8ByteSize_append, size_repeated]
  rfl

theorem size_longName : longName.utf8ByteSize = 200 := by
  rw [longName, size_repeated]
  rfl

theorem longName_ne {name : String} (h : name.utf8ByteSize ≠ 200) : longName ≠ name := by
  intro heq
  rw [← heq, size_longName] at h
  exact h rfl

theorem isName_longName : Disk.Path.IsName longName where
  ne_empty := longName_ne (by decide)
  ne_here := longName_ne (by decide)
  ne_above := longName_ne (by decide)
  no_separator h := absurd (mem_toList_repeated h) (by decide)
  no_zero h := absurd (mem_toList_repeated h) (by decide)
  fits := by rw [size_longName]; decide

theorem wellFormed_longTree : longTree.WellFormed := by
  refine .dir (List.pairwise_singleton _ _) ?_ ?_
  · simpa using isName_longName
  · simpa using (by decide +kernel : (Node.dir [("a.ts", .file .empty)]).WellFormed)

theorem getLast?_longTarget : longTarget.toList.getLast? = some '/' :=
  getLast?_append_repeated "." 3998

theorem reach_longTarget : longTree.reach [] longTarget = .ok (some longTree) := by
  have hreach := @reach_here_repeated [(longName, .dir [("a.ts", .file .empty)])] 3998 (by decide) "" (.inl rfl)
  rwa [String.append_empty] at hreach

theorem selected_longTree : Selected (longTree.disk []) longTree longTarget [longName] "a.ts" := by
  have inside : longTree.at? [longName].reverse = some (.dir [("a.ts", .file .empty)]) := by
    simp [Node.at?, Node.child?, longTree]
  have entered : ∀ d ∈ [longName], d ≠ "node_modules" ∧ d ≠ ".next" := by
    simp only [List.mem_singleton, forall_eq]
    exact ⟨longName_ne (by decide), longName_ne (by decide)⟩
  refine ⟨inside, entered, List.mem_singleton_self _, by decide, ?_, ⟨by decide, by decide⟩⟩
  intro h
  cases h

/-- The files of a directory whose path is too long to be listed are not handed out, although real
directories lead to them and their names are selected. -/
theorem files_long_directory :
    longTree.WellFormed ∧ (longTree.disk []).inspect longTarget ≠ .ok .regular ∧
      longTree.reach [] longTarget = .ok (some longTree) ∧
      Selected (longTree.disk []) longTree longTarget [longName] "a.ts" ∧
      Disk.Path.under longTarget [longName, "a.ts"] ∉ files (longTree.disk []) longTarget := by
  refine ⟨wellFormed_longTree, by simp [inspect_of_reach reach_longTarget], reach_longTarget, selected_longTree, ?_⟩
  have hlong : Disk.Path.limit < (Disk.Path.join longTarget longName).utf8ByteSize := by
    rw [Disk.Path.join, if_pos getLast?_longTarget, String.utf8ByteSize_append, size_longTarget,
      size_longName]
    decide
  rw [files_of_long_subdirectory (wellFormed_longTree.proper _ _) reach_longTarget hlong]
  exact List.not_mem_nil

end LongPaths

end FrontendAudit.Walk
