import Mathlib.Data.List.Infix
import Pbfhogg.BlobMeta

/-!
# Tag expressions

`tag_expr.rs` and the matching of `tags_filter/mod.rs`. A `str` is the list of its bytes: every
pattern here is a whole `str` or an ASCII character.
-/

namespace TagExpr

open OsmId

abbrev Str := List UInt8

inductive StringMatcher where
  | always
  | equal (v : Str)
  | list (vs : List Str)
  | prefixed (p : Str)
  | substring (sub : Str)

namespace StringMatcher

def accepts : StringMatcher → Str → Bool
  | .always, _ => true
  | .equal v, s => s == v
  | .list vs, s => vs.any (· == s)
  | .prefixed p, s => decide (p <+: s)
  | .substring sub, s => decide (sub <:+: s)

end StringMatcher

structure TagMatcher where
  key : StringMatcher
  value : Option StringMatcher
  invert : Bool

structure TypeFilter where
  nodes : Bool
  ways : Bool
  relations : Bool

namespace TypeFilter

def all : TypeFilter := ⟨true, true, true⟩

def admits (f : TypeFilter) : ElementKind → Bool
  | .node => f.nodes
  | .way => f.ways
  | .relation => f.relations

end TypeFilter

structure Expression where
  typeFilter : TypeFilter
  matcher : TagMatcher

inductive ParseError where
  | spacedTypePrefix
  | emptyKey
  | emptyExpression

def space : UInt8 := 32
def bang : UInt8 := 33
def star : UInt8 := 42
def comma : UInt8 := 44
def slash : UInt8 := 47
def equalSign : UInt8 := 61
def letterN : UInt8 := 110
def letterR : UInt8 := 114
def letterW : UInt8 := 119

def stripSpaces (s : Str) : Str :=
  ((s.dropWhile (· == space)).reverse.dropWhile (· == space)).reverse

/-- What stands before the first `c` and, when there is one, what stands behind it. -/
def splitAt (c : UInt8) (s : Str) : Str × Option Str :=
  match s.span (· != c) with
  | (before, []) => (before, none)
  | (before, _ :: after) => (before, some after)

def isTypePrefix (s : Str) : Bool :=
  !s.isEmpty && s.all fun c => c == letterN || c == letterW || c == letterR

variable (input : Str)

def parseTypePrefix : Except ParseError (TypeFilter × Str) :=
  match splitAt slash input with
  | (_, none) => .ok (.all, input)
  | (before, some rest) =>
    if isTypePrefix before then
      .ok (⟨before.contains letterN, before.contains letterW, before.contains letterR⟩, rest)
    else if before.contains space && isTypePrefix (stripSpaces before) then
      .error .spacedTypePrefix
    else .ok (.all, input)

def parseStringMatcher : StringMatcher :=
  let s := stripSpaces input
  if s = [star] then .always
  else
    let leadingStar := s.head? = some star
    let trailingStar := s.getLast? = some star
    if ¬ leadingStar ∧ ¬ trailingStar then
      if s.contains comma then .list ((s.splitOn comma).map stripSpaces) else .equal s
    else if trailingStar ∧ ¬ leadingStar then .prefixed s.dropLast
    else
      let inner := s.drop 1
      .substring (if inner.getLast? = some star then inner.dropLast else inner)

def parseTagMatcher : Except ParseError TagMatcher :=
  let (keyPart, valuePart) := splitAt equalSign input
  let invert := valuePart.isSome && keyPart.getLast? == some bang
  let keyStr := stripSpaces (if invert then keyPart.dropLast else keyPart)
  if keyStr.isEmpty then .error (if valuePart.isSome then .emptyKey else .emptyExpression)
  else .ok ⟨parseStringMatcher keyStr, valuePart.map parseStringMatcher, invert⟩

def parseExpression : Except ParseError Expression := do
  let (typeFilter, tagPart) ← parseTypePrefix input
  return ⟨typeFilter, ← parseTagMatcher tagPart⟩

def parseExpressions (inputs : List Str) : Except ParseError (List Expression) :=
  inputs.mapM parseExpression

def tagMatches (m : TagMatcher) (key value : Str) : Bool :=
  m.key.accepts key && match m.value with
    | none => true
    | some v => v.accepts value != m.invert

/-- `element_matches`: some applicable expression matches some tag. -/
def elementMatches (expressions : List Expression) (tags : List (Str × Str)) (kind : ElementKind) :
    Bool :=
  expressions.any fun e => e.typeFilter.admits kind && tags.any fun t => tagMatches e.matcher t.1 t.2

lemma elementMatches_iff {expressions : List Expression} {tags : List (Str × Str)}
    {kind : ElementKind} : elementMatches expressions tags kind = true ↔
      ∃ e ∈ expressions, e.typeFilter.admits kind = true ∧
        ∃ t ∈ tags, tagMatches e.matcher t.1 t.2 = true := by
  simp only [elementMatches, List.any_eq_true, Bool.and_eq_true]

end TagExpr
