import FrontendAudit.Proofs.Cancellation
import FrontendAudit.Proofs.Gate
import FrontendAudit.Proofs.Isolation
import FrontendAudit.Proofs.Merge
import Mathlib.Data.List.Dedup

namespace FrontendAudit

namespace Disk

namespace Path

theorem getLast?_separator (t : String) : (t ++ "/").toList.getLast? = some '/' := by
  rw [String.toList_append]
  exact List.getLast?_concat

theorem join_separator {t : String} (h : t.toList.getLast? ≠ some '/') (name : String) :
    join (t ++ "/") name = join t name := by
  rw [join, join, if_pos (getLast?_separator t), if_neg h]

theorem size_separator (t : String) : (t ++ "/").utf8ByteSize = t.utf8ByteSize + 1 :=
  String.utf8ByteSize_append

theorem steps_separator {t : String} (h : t.toList.getLast? ≠ some '/') :
    steps (t ++ "/") = steps t ++ ["."] := by
  rw [steps, steps, if_pos (getLast?_separator t), if_neg h, names_separator]

theorem isAbsolute_separator {t : String} (h : t ≠ "") : isAbsolute (t ++ "/") = isAbsolute t := by
  have hne : t.toList ≠ [] := by simpa using h
  obtain ⟨c, cs, hcs⟩ := List.exists_cons_of_ne_nil hne
  simp [isAbsolute, hcs]

end Path

namespace Node

variable {root : Node} {place : Place} {t : String} {here : Trail}

theorem resolve_of_separator (hne : t ≠ "") (hlast : t.toList.getLast? ≠ some '/')
    (h : root.resolve true place (t ++ "/") = .ok here) : root.resolve true place t = .ok here := by
  obtain ⟨-, hzero, hsize, hfollow⟩ := resolve_ok h
  rw [Path.size_separator] at hsize
  rw [startOf, Path.isAbsolute_separator hne, Path.steps_separator hlast] at hfollow
  refine resolve_of_follow hne ?_ (by omega) (follow_of_append_here hfollow)
  intro hmem
  exact hzero (by simp [hmem])

theorem resolve_separator (hlast : t.toList.getLast? ≠ some '/') (hsize : t.utf8ByteSize < Path.limit)
    (h : root.resolve true place t = .ok here) (hdir : isDirectory (here.node? root) = true) :
    root.resolve true place (t ++ "/") = .ok here := by
  obtain ⟨hne, hzero, -, hfollow⟩ := resolve_ok h
  refine resolve_of_follow (by simp) ?_ (by rw [Path.size_separator]; omega) ?_
  · intro hmem
    rw [String.toList_append, List.mem_append] at hmem
    exact hmem.elim hzero (by decide)
  · rw [startOf, Path.isAbsolute_separator hne, Path.steps_separator hlast]
    refine follow_append (fun jump ↦ ?_) hfollow
    simp [advance, hdir]

theorem reach_of_separator (hne : t ≠ "") (hlast : t.toList.getLast? ≠ some '/') {n : Node}
    (h : root.reach place (t ++ "/") = .ok (some n)) : root.reach place t = .ok (some n) := by
  obtain ⟨here, hres, hnode⟩ := exists_trail_of_reach h
  rw [reach, resolve_of_separator hne hlast hres, Except.map, hnode]

theorem inspect_eq_regular_iff :
    (root.disk place).inspect t = .ok .regular ↔ ∃ n, root.reach place t = .ok (some n) ∧ n.kind ≠ .directory := by
  simp only [disk]
  cases root.reach place t with
  | error e => simp
  | ok n? =>
    cases n? with
    | none => simp
    | some n => cases n <;> simp [kind]

theorem inspect_separator_ne_regular (hne : t ≠ "") (hlast : t.toList.getLast? ≠ some '/')
    (h : (root.disk place).inspect t ≠ .ok .regular) : (root.disk place).inspect (t ++ "/") ≠ .ok .regular := by
  intro hregular
  obtain ⟨n, hreach, hkind⟩ := inspect_eq_regular_iff.1 hregular
  exact h (inspect_eq_regular_iff.2 ⟨n, reach_of_separator hne hlast hreach, hkind⟩)

theorem list_separator_iff (hne : t ≠ "") (hlast : t.toList.getLast? ≠ some '/')
    (hsize : t.utf8ByteSize ≠ Path.limit) (listed : List Entry) :
    (root.disk place).list (t ++ "/") = .ok listed ↔ (root.disk place).list t = .ok listed := by
  constructor
  · intro h
    obtain ⟨entries, hreach, rfl⟩ := Walk.reach_of_list h
    exact Walk.list_of_reach (reach_of_separator hne hlast hreach)
  · intro h
    obtain ⟨entries, hreach, rfl⟩ := Walk.reach_of_list h
    obtain ⟨here, hres, hdir⟩ := exists_trail_of_reach hreach
    have hle := (resolve_ok hres).2.2.1
    apply Walk.list_of_reach
    rw [reach, resolve_separator hlast (by omega) hres (by rw [hdir]; rfl), Except.map, hdir]

end Node

end Disk

namespace Walk

open Disk (Node Place)

theorem visit?_of_join_eq {disk : Disk} {t t' : String}
    (h : ∀ name, Disk.Path.join t' name = Disk.Path.join t name) : visit? disk t' = visit? disk t := by
  funext e
  have hdir : isDir disk t' e = isDir disk t e := by simp only [isDir, h]
  rw [visit?, visit?, hdir, h]

theorem files_below_of_join_eq {disk : Disk} {t t' : String}
    (hjoin : ∀ name, Disk.Path.join t' name = Disk.Path.join t name)
    (hlist : ∀ listed, disk.list t' = .ok listed ↔ disk.list t = .ok listed) (depth : Nat) :
    (below disk depth t').filterMap Visit.path? = (below disk depth t).filterMap Visit.path? := by
  cases hl : disk.list t with
  | ok listed =>
    have hl' := (hlist listed).2 hl
    cases depth with
    | zero => rfl
    | succ depth => simp only [below, hl, hl', visit?_of_join_eq hjoin, hjoin]
  | error e =>
    -- The two errors may differ, but neither listing hands out a file.
    cases hl' : disk.list t' with
    | ok listed => exact absurd (hl.symm.trans ((hlist listed).1 hl')) (by simp)
    | error e' => rw [files_below_of_error hl, files_below_of_error hl']

theorem files_below_of_single {disk : Disk} {t name : String} (hlist : disk.list t = .ok [⟨name, .regular⟩])
    (htarget : Selection.isTarget name = true) (depth : Nat) :
    (below disk (depth + 1) t).filterMap Visit.path? = [Disk.Path.join t name] := by
  rw [below, hlist]
  simp [visit?, isDir, htarget, descends, Visit.path?]

section

variable {root : Node} {place : Place} {t : String} (hne : t ≠ "") (hlast : t.toList.getLast? ≠ some '/')
  (hregular : (root.disk place).inspect t ≠ .ok .regular)

include hne hlast hregular

theorem files_separator (hsize : t.utf8ByteSize ≠ Disk.Path.limit) :
    files (root.disk place) (t ++ "/") = files (root.disk place) t := by
  rw [files_of_not_regular hregular, files_of_not_regular (Node.inspect_separator_ne_regular hne hlast hregular)]
  exact files_below_of_join_eq (Disk.Path.join_separator hlast) (Node.list_separator_iff hne hlast hsize) _

theorem files_separator_too_long (hsize : t.utf8ByteSize = Disk.Path.limit) :
    files (root.disk place) (t ++ "/") = [] := by
  rw [files_of_not_regular (Node.inspect_separator_ne_regular hne hlast hregular)]
  exact files_below_too_long root place (by rw [Disk.Path.size_separator]; omega) _

end

end Walk

namespace Audit

open Disk (Node Place)

theorem size_collect (disk : Disk) (targets : List String) :
    (collect disk targets).size =
      ((targets.flatMap (Walk.files disk)).filter fun f ↦ (Source.check disk f).findings ≠ []).dedup.length := by
  rw [← Reports.length_paths]
  refine List.Perm.length_eq ((List.perm_ext_iff_of_nodup (Reports.nodup_paths _) (List.nodup_dedup _)).2 ?_)
  intro f
  rw [mem_paths_collect, ← Source.findings_check_eq_nil_iff, List.mem_dedup, List.mem_filter, decide_eq_true_eq,
    List.mem_flatMap]
  rfl

theorem collect_pair_of_files_eq {disk : Disk} {t t' : String} (h : Walk.files disk t' = Walk.files disk t) :
    ∀ targets ∈ [[t], [t'], [t, t']], collect disk targets = collect disk [t] := by
  have hout : ∀ path, HandedOut disk [t'] path ↔ HandedOut disk [t] path := by
    simp [HandedOut, h]
  simp only [List.mem_cons, List.not_mem_nil, or_false, forall_eq_or_imp, forall_eq, true_and]
  refine ⟨collect_congr disk hout, collect_congr disk fun path ↦ ?_⟩
  rw [← List.singleton_append, handedOut_append, hout, or_self]

theorem run_of_length_lt (host : Host) {paths : List String}
    (h : ∀ n, host.deadline = some n → (Target.all host.disk paths).length < n) :
    (scan host paths).reports = collect host.disk (Target.all host.disk paths) ∧
      (run host paths).output = (run host.uncancelled paths).output ∧
      (run host paths).error? = (run host.uncancelled paths).error? := by
  obtain ⟨disk, colour, deadline, writeError?⟩ := host
  cases deadline with
  | none => exact ⟨reports_scan _ paths, rfl, rfl⟩
  | some n =>
    have hn := h n rfl
    refine ⟨?_, run_cancelledAfter_of_lt _ paths hn⟩
    rw [reports_scan, Deadline.admitted, List.take_of_length_le (Nat.le_of_lt hn)]

/-- A target that is no regular file is searched in the same way with a separator behind it. An audit of either or
of both that is not cancelled prints the same and counts each file once, unless the separator makes the target too
long. -/
theorem trailing_separator_same_audit (root : Node) (place : Place) (host : Host) (t : String) (hne : t ≠ "")
    (hlast : t.toList.getLast? ≠ some '/') (hregular : (root.disk place).inspect t ≠ .ok .regular)
    (hsize : t.utf8ByteSize ≠ 4095) :
    let disk := root.disk place
    let host := host.withDisk disk
    Walk.files disk (t ++ "/") = Walk.files disk t ∧
      ∀ paths ∈ [[t], [t ++ "/"], [t, t ++ "/"]], (∀ n, host.deadline = some n → paths.length < n) →
        (run host paths).output = (run host.uncancelled [t]).output ∧
        (run host paths).error? = (run host.uncancelled [t]).error? ∧
        (scan host paths).reports.size =
          ((Walk.files disk t).filter fun f ↦ (Source.check disk f).findings ≠ []).dedup.length := by
  intro disk host'
  have hfiles : Walk.files disk (t ++ "/") = Walk.files disk t :=
    Walk.files_separator hne hlast hregular hsize
  refine ⟨hfiles, fun paths hpaths hdeadline ↦ ?_⟩
  have hgiven : paths ≠ [] := by
    intro hempty
    simp [hempty] at hpaths
  have htargets : Target.all disk paths = paths := targets_of_paths disk hgiven
  have hcollect : collect disk (Target.all disk paths) = collect disk (Target.all disk [t]) := by
    rw [htargets, targets_of_paths disk (List.cons_ne_nil t [])]
    exact collect_pair_of_files_eq hfiles paths hpaths
  obtain ⟨hscan, houtput, herror⟩ := run_of_length_lt host' (htargets.symm ▸ hdeadline)
  obtain ⟨hprinted, hfailed⟩ := run_uncancelled host' paths
  obtain ⟨hprinted', hfailed'⟩ := run_uncancelled host' [t]
  refine ⟨?_, ?_, ?_⟩
  · exact houtput.trans (hprinted.trans (hcollect ▸ hprinted'.symm))
  · exact herror.trans (hfailed.trans (hcollect ▸ hfailed'.symm))
  · have hreports : (scan host' paths).reports = collect disk (Target.all disk paths) := hscan
    rw [hreports, hcollect, targets_of_paths disk (List.cons_ne_nil t []), size_collect, List.flatMap_singleton]

theorem trailing_separator_same_audit_link :
    let root : Node := .dir [("all", .link "src"), ("src", .dir [("a.ts", .file "top: 5px".toUTF8),
      ("b.ts", .file .empty), ("lib", .dir [("c.css", .file "gap: 7px".toUTF8)])])]
    let disk := root.disk []
    let host : Host := { disk, deadline := some 3 }
    disk.inspect "all" ≠ .ok .regular ∧
      Walk.files disk "all/" = Walk.files disk "all" ∧
      Walk.files disk "all" = ["all/a.ts", "all/b.ts", "all/lib/c.css"] ∧
      (run host ["all", "all/"]).output = (run host.uncancelled ["all"]).output ∧
      (scan host ["all", "all/"]).reports.size = 2 := by
  intro root disk host
  have hinspect : (disk.inspect "all").toOption = some .directory := by decide +kernel
  have hregular : disk.inspect "all" ≠ .ok .regular := by
    intro hregular
    rw [hregular] at hinspect
    cases hinspect
  obtain ⟨hfiles, hruns⟩ :=
    trailing_separator_same_audit root [] host "all" (by decide) (by decide) hregular (by decide)
  obtain ⟨houtput, -, hsize⟩ := hruns ["all", "all/"] (by simp) (by rintro n ⟨⟩; decide)
  refine ⟨hregular, hfiles, by decide +kernel, houtput, hsize.trans ?_⟩
  decide +kernel

section LongPaths

open Walk (repeated size_repeated)

def longestTarget : String :=
  "." ++ repeated "/" 4093 ++ "."

def smallTree : Node :=
  .dir [("a.ts", .file .empty)]

theorem longestTarget_ne_empty : longestTarget ≠ "" := by
  simp [longestTarget]

theorem size_longestTarget : longestTarget.utf8ByteSize = 4095 := by
  rw [longestTarget, String.utf8ByteSize_append, String.utf8ByteSize_append, size_repeated]
  rfl

theorem getLast?_append_here (front : String) : (front ++ ".").toList.getLast? ≠ some '/' := by
  have hlast : (front ++ ".").toList.getLast? = some '.' := by
    rw [String.toList_append]
    exact List.getLast?_concat
  rw [hlast]
  decide

theorem getLast?_longestTarget : longestTarget.toList.getLast? ≠ some '/' :=
  getLast?_append_here _

theorem reach_longestTarget : smallTree.reach [] longestTarget = .ok (some smallTree) :=
  Walk.reach_here_repeated _ (by decide : 4092 + 3 ≤ Disk.Path.limit) (.inr rfl)

theorem inspect_longestTarget : (smallTree.disk []).inspect longestTarget ≠ .ok .regular := by
  simp [Walk.inspect_of_reach reach_longestTarget]

/-- A directory is searched whose path is as long as a path may be, but not with a separator behind that path. -/
theorem files_separator_limit :
    longestTarget ≠ "" ∧ longestTarget.toList.getLast? ≠ some '/' ∧
      (smallTree.disk []).inspect longestTarget ≠ .ok .regular ∧
      Walk.files (smallTree.disk []) longestTarget = [longestTarget ++ "/" ++ "a.ts"] ∧
      Walk.files (smallTree.disk []) (longestTarget ++ "/") = [] := by
  refine ⟨longestTarget_ne_empty, getLast?_longestTarget, inspect_longestTarget, ?_,
    Walk.files_separator_too_long longestTarget_ne_empty getLast?_longestTarget inspect_longestTarget
      size_longestTarget⟩
  have hlist := Walk.list_of_reach reach_longestTarget
  rw [Walk.files_of_not_regular inspect_longestTarget, Walk.files_below_of_single hlist (by decide),
    Disk.Path.join, if_neg getLast?_longestTarget]

end LongPaths

end Audit

end FrontendAudit
