import UBoot.Env.Export
import UBoot.Lib.Strtoul

/-!
# The test command

Reference: `common/cmd_test.c`, `lib/vsprintf.c::simple_strtol`.

One loop takes an operator with its words at a time. It carries the value so far, the operator that
waits for its right side, and a pending negation.
-/

namespace UBoot.Cli

open UBoot.Common UBoot.Env UBoot.Lib List

inductive Op where
  | not | or | and | strEmpty | strNempty | strEq | strNeq | strLt | strGt
  | intEq | intNeq | intLt | intLe | intGt | intGe | fileExists
deriving DecidableEq

def word (s : String) : CStr := .ofBytes s.toUTF8.data.toList

/-- The operator `op` is the word `str` at place `arg`, and takes `adv` words. -/
structure OpAdv where
  arg : ℕ
  str : CStr
  op : Op
  adv : ℕ
deriving DecidableEq

/-- `op_adv`. -/
def opAdv : List OpAdv :=
  [⟨1, word "=", .strEq, 3⟩, ⟨1, word "!=", .strNeq, 3⟩, ⟨1, word "<", .strLt, 3⟩,
    ⟨1, word ">", .strGt, 3⟩, ⟨1, word "-eq", .intEq, 3⟩, ⟨1, word "-ne", .intNeq, 3⟩,
    ⟨1, word "-lt", .intLt, 3⟩, ⟨1, word "-le", .intLe, 3⟩,
    ⟨1, word "-gt", .intGt, 3⟩, ⟨1, word "-ge", .intGe, 3⟩, ⟨0, word "!", .not, 1⟩, ⟨0, word "-o", .or, 1⟩,
    ⟨0, word "-a", .and, 1⟩, ⟨0, word "-z", .strEmpty, 2⟩, ⟨0, word "-n", .strNempty, 2⟩,
    ⟨0, word "-e", .fileExists, 4⟩]

/-- `simple_strtol` with base 10. -/
def simpleStrtol (cp : CStr) : ℤ :=
  Int.bmod (match cp.bytes with
    | 45 :: p => -((simpleStrtoul 10 p).1 : ℤ)
    | p => (simpleStrtoul 10 p).1) (2 ^ 64)

-- what `file_exists` returns
variable (file : CStr → CStr → CStr → Bool)

/-- The first switch: the value of an operator at the words `ap`. -/
def Op.value (ap : ℕ → CStr) (expr : Bool) : Op → Bool
  | .strEmpty => (ap 1).length = 0
  | .strNempty => (ap 1).length ≠ 0
  | .strEq => strcmp (ap 0) (ap 2) = 0
  | .strNeq => strcmp (ap 0) (ap 2) ≠ 0
  | .strLt => strcmp (ap 0) (ap 2) < 0
  | .strGt => strcmp (ap 0) (ap 2) > 0
  | .intEq => simpleStrtol (ap 0) = simpleStrtol (ap 2)
  | .intNeq => simpleStrtol (ap 0) ≠ simpleStrtol (ap 2)
  | .intLt => simpleStrtol (ap 0) < simpleStrtol (ap 2)
  | .intLe => simpleStrtol (ap 0) ≤ simpleStrtol (ap 2)
  | .intGt => simpleStrtol (ap 0) > simpleStrtol (ap 2)
  | .intGe => simpleStrtol (ap 0) ≥ simpleStrtol (ap 2)
  | .fileExists => file (ap 1) (ap 2) (ap 3)
  | .not | .or | .and => expr

/-- What the loop carries; `lastUnop` says whether a negation is pending. -/
structure TestState where
  expr : Bool
  lastExpr : Bool
  lastUnop : Bool
  lastBinop : Option Op

/-- The default of the second switch: a primary has the value `expr`. -/
def TestState.join (s : TestState) (expr : Bool) : TestState :=
  let expr := if s.lastUnop then !expr else expr
  ⟨if s.lastBinop = some .or then s.lastExpr || expr else if s.lastBinop = some .and then
    s.lastExpr && expr else expr, s.lastExpr, false, none⟩

/-- The second switch. -/
def TestState.next (s : TestState) (expr : Bool) : Op → TestState
  | .or => ⟨expr, expr, s.lastUnop, some .or⟩
  | .and => ⟨expr, expr, s.lastUnop, some .and⟩
  | .not => ⟨expr, s.lastExpr, !s.lastUnop, s.lastBinop⟩
  | _ => s.join expr

/-- A primary with the negations in front of it. -/
structure Term where
  nots : ℕ
  entry : OpAdv
  a : CStr
  b : CStr
  known : entry ∈ opAdv
  primary : entry.adv = 2 ∨ entry.adv = 3
  operands : ∀ e ∈ opAdv, e.str ≠ a ∧ e.str ≠ b

def Term.primaryWords (t : Term) : List CStr :=
  if t.entry.arg = 0 then [t.entry.str, t.a] else [t.a, t.entry.str, t.b]

def Term.words (t : Term) : List CStr := replicate t.nots (word "!") ++ t.primaryWords

/-- The value of a primary is what its operator says; each negation turns it over. -/
def Term.value (t : Term) : Bool := not^[t.nots]
    (t.entry.op.value file (t.primaryWords.getD · ∅) false)

/-- An expression: a term, or an expression that a term is joined to by `-a` or by `-o`. -/
inductive Expr where
  | term (t : Term)
  | join (e : Expr) (conj : Bool) (t : Term)

def Expr.words : Expr → List CStr
  | .term t => t.words
  | .join e conj t => e.words ++ word (if conj then "-a" else "-o") :: t.words

def Expr.value : Expr → Bool
  | .term t => t.value file
  | .join e conj t => if conj then e.value && t.value file else e.value || t.value file

/-! ### The loop -/

variable {file} {ap rest : List CStr} {e : OpAdv} {s : TestState} {fuel : ℕ}

end UBoot.Cli
