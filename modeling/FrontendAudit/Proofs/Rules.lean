import FrontendAudit.Line
import FrontendAudit.Proofs.Spacing

namespace FrontendAudit

open Text

inductive Rule
  | arbitraryValue
  | declaration
  | symmetry
  | loop
  deriving DecidableEq, Repr

namespace Rule

def all : List Rule :=
  [arbitraryValue, declaration, symmetry, loop]

def opening : Rule → String
  | arbitraryValue => "Grid Violation - Arbitrary value ["
  | declaration => "Grid Violation - "
  | symmetry => "Symmetry Violation - "
  | loop => "Perf Warning - "

/-- The first rule whose words the message starts with. The order counts: the words of an arbitrary value begin
with those of a declaration. -/
def ofMessage? (message : String) : Option Rule :=
  all.find? fun r ↦ r.opening.toList.isPrefixOf message.toList

def among (r : Rule) (findings : List Finding) : List Finding :=
  findings.filter fun f ↦ ofMessage? f.message = some r

def messages (r : Rule) (findings : List Finding) : List String :=
  (r.among findings).map Finding.message

theorem messages_flatMap {α : Type} (r : Rule) (l : List α) (f : α → List Finding) :
    r.messages (l.flatMap f) = l.flatMap fun a ↦ r.messages (f a) := by
  rw [messages, among, List.filter_flatMap, List.map_flatMap]
  rfl

end Rule

namespace Violation

def rule : Violation → Rule
  | spacing (.arbitrary _) => .arbitraryValue
  | spacing (.declared _ _) => .declaration
  | asymmetricPadding _ _ => .symmetry
  | awaitInLoop => .loop

theorem ofMessage?_message (v : Violation) : Rule.ofMessage? v.message = some v.rule := by
  cases v with
  | spacing s =>
    cases s with
    | arbitrary ds =>
      have hmessage : (spacing (.arbitrary ds)).message =
        "Grid Violation - Arbitrary value [" ++ String.ofList ds ++ "px] is not a multiple of 4." := rfl
      rw [hmessage]
      simp [Rule.ofMessage?, Rule.all, Rule.opening, rule]
    | declared p ds =>
      have hmessage : (spacing (.declared p ds)).message =
        "Grid Violation - " ++ p.name ++ " value " ++ String.ofList ds ++ "px is not a multiple of 4." := rfl
      rw [hmessage]
      cases p <;>
        simp [Rule.ofMessage?, Rule.all, Rule.opening, rule, Spacing.Property.name, Spacing.Property.word,
          List.isPrefixOf]
  | asymmetricPadding x y =>
    have hmessage : (asymmetricPadding x y).message =
      "Symmetry Violation - Asymmetric padding (px-" ++ String.ofList x ++ " vs py-" ++ String.ofList y ++ ")." :=
      rfl
    rw [hmessage]
    simp [Rule.ofMessage?, Rule.all, Rule.opening, rule, List.isPrefixOf]
  | awaitInLoop =>
    have hmessage : awaitInLoop.message = "Perf Warning - Possible 'await' in a synchronous-looking loop." := rfl
    rw [hmessage]
    simp [Rule.ofMessage?, Rule.all, Rule.opening, rule, List.isPrefixOf]

def ofRule (line : List Char) : Rule → List Violation
  | .arbitraryValue => ((scan Spacing.arbitrary? line).filter Spacing.offScale).map spacing
  | .declaration => ((scan Spacing.declared? line).filter Spacing.offScale).map spacing
  | .symmetry => ((Padding.asymmetry? line).map fun xy ↦ asymmetricPadding xy.1 xy.2).toList
  | .loop => if Loop.hasAwaitInLoop line then [awaitInLoop] else []

theorem ofLine_eq_flatMap (line : List Char) : ofLine line = Rule.all.flatMap (ofRule line) := by
  simp only [ofLine, Spacing.ofLine, Rule.all, ofRule, List.flatMap_cons, List.flatMap_nil, List.append_nil,
    List.filter_append, List.map_append, List.append_assoc]

theorem rule_of_mem_ofRule {line : List Char} {r : Rule} {v : Violation} (h : v ∈ ofRule line r) :
    v.rule = r := by
  cases r with
  | arbitraryValue =>
    obtain ⟨s, hs, rfl⟩ := List.mem_map.1 h
    obtain ⟨_, _, m, -, hm, rfl⟩ := exists_of_mem_scan (List.mem_filter.1 hs).1
    obtain ⟨ds, after, -, -, rfl⟩ := Spacing.arbitrary?_eq_some_iff.1 hm
    rfl
  | declaration =>
    obtain ⟨s, hs, rfl⟩ := List.mem_map.1 h
    obtain ⟨_, _, m, -, hm, rfl⟩ := exists_of_mem_scan (List.mem_filter.1 hs).1
    obtain ⟨p, w, value, px, -, -, -, rfl⟩ := Spacing.declared?_eq_some_iff.1 hm
    rfl
  | symmetry =>
    obtain ⟨xy, -, rfl⟩ := Option.map_eq_some_iff.1 (Option.mem_toList.1 h)
    rfl
  | loop =>
    rw [ofRule] at h
    split at h
    · rw [List.mem_singleton.1 h]
      rfl
    · cases h

theorem filter_rule_ofRule (line : List Char) (r r' : Rule) :
    (ofRule line r').filter (fun v ↦ v.rule = r) = if r' = r then ofRule line r else [] := by
  split
  · next heq =>
    rw [heq, List.filter_eq_self]
    intro v hv
    simpa using rule_of_mem_ofRule hv
  · next hne =>
    rw [List.filter_eq_nil_iff]
    intro v hv
    rw [rule_of_mem_ofRule hv]
    simpa using hne

theorem filter_rule_ofLine (line : List Char) (r : Rule) :
    (ofLine line).filter (fun v ↦ v.rule = r) = ofRule line r := by
  rw [ofLine_eq_flatMap, List.filter_flatMap]
  simp only [filter_rule_ofRule]
  cases r <;> simp [Rule.all]

end Violation

theorem Rule.among_findings (r : Rule) (number : Int) (line : List Char) :
    r.among (Line.findings number line) = (Violation.ofRule line r).map fun v ↦ ⟨number, v.message⟩ := by
  rw [among, Line.findings, List.filter_map, ← Violation.filter_rule_ofLine]
  simp only [Function.comp_def, Violation.ofMessage?_message, Option.some.injEq]

theorem Rule.messages_findings (r : Rule) (number : Int) (line : List Char) :
    r.messages (Line.findings number line) = (Violation.ofRule line r).map Violation.message := by
  rw [messages, among_findings, List.map_map]
  rfl

end FrontendAudit
