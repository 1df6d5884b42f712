import Clausal.Formula
import Clausal.Tptp.Token

/-!
# Grammar of terms and formulas

Words that start with an upper-case letter are variables; other words are constants, functions or
predicates, depending on where they stand.  Connectives other than `|` and `&` take exactly two
operands, `|` and `&` chain to the left and do not mix, and a quantifier or `~` reaches over one
unit only, so everything else needs parentheses.

Each function reads the longest phrase of its kind from a list of tokens and returns the tokens
after it.  The first argument of the recursive ones bounds the nesting; a phrase never nests deeper
than it has tokens.

## Main definitions

- `ParseError`: why a text is not a phrase
- `readTerm`, `readUnit`, `readFormula`, `readClauseFormula`
- `parseTerm`, `parseFormula`: terms and formulas from texts
-/

namespace Clausal.Tptp

/-! ## Section 1: Results -/

/-- Why a text is not a phrase: it cannot go on as it does, or it ends too early. -/
inductive ParseError where
  | unexpected
  | incomplete
  deriving DecidableEq, Repr, Inhabited

/-- A value and the tokens after it. -/
abbrev Parsed (α : Type) : Type :=
  Except ParseError (α × List Token)

/-- The error at the given tokens, none of which can go on: a text that ends there is incomplete. -/
def stuck {α : Type} : List Token → Except ParseError α
  | [] => .error .incomplete
  | _ :: _ => .error .unexpected

/-- Read one given token. -/
def expect (t : Token) : List Token → Except ParseError (List Token)
  | [] => .error .incomplete
  | u :: ts => if u = t then .ok ts else .error .unexpected

/-- The name that a token gives to a constant, function or predicate. -/
def functor? : Token → Option Ident
  | .lower s => some (.name s)
  | .quoted s => some (.name s)
  | _ => none

/-! ## Section 2: Terms -/

mutual

/-- Read a term. -/
def readTerm : Nat → List Token → Parsed Term
  | _ + 1, .upper x :: ts => .ok (.var (.name x), ts)
  | n + 1, t :: ts =>
    match functor? t, ts with
    | none, _ => .error .unexpected
    | some f, .lparen _ :: ts =>
      match readArgs n ts with
      | .error e => .error e
      | .ok (args, ts) => .ok (.app f args, ts)
    | some f, ts => .ok (.const f, ts)
  | _, ts => stuck ts

/-- Read terms separated by commas, up to a closing parenthesis. -/
def readArgs : Nat → List Token → Parsed (List Term)
  | n + 1, ts =>
    match readTerm n ts with
    | .error e => .error e
    | .ok (t, .comma :: ts) =>
      match readArgs n ts with
      | .error e => .error e
      | .ok (args, ts) => .ok (t :: args, ts)
    | .ok (t, .rparen :: ts) => .ok ([t], ts)
    | .ok (_, ts) => stuck ts
  | _, ts => stuck ts

end

/-! ## Section 3: Atoms -/

/-- Read the rest of an equation after its left side. -/
def readEquation (n : Nat) (l : Term) : List Token → Parsed Formula
  | .equal :: ts =>
    match readTerm n ts with
    | .error e => .error e
    | .ok (r, ts) => .ok (.atom (.eq l r), ts)
  | .unequal :: ts =>
    match readTerm n ts with
    | .error e => .error e
    | .ok (r, ts) => .ok (.not (.atom (.eq l r)), ts)
  | ts => stuck ts

/-- The atom that a term is when it does not stand in an equation. -/
def atomOfTerm? : Term → Option Atom
  | .var _ => none
  | .const c => some (.pred c [])
  | .app f args => some (.pred f args)

/-- Read an atom, an equation or a negated equation. -/
def readAtom (n : Nat) (ts : List Token) : Parsed Formula :=
  match readTerm n ts with
  | .error e => .error e
  | .ok (t, ts) =>
    match atomOfTerm? t, ts with
    | _, .equal :: _ => readEquation n t ts
    | _, .unequal :: _ => readEquation n t ts
    | some a, ts => .ok (.atom a, ts)
    | none, ts => stuck ts

/-! ## Section 4: Formulas -/

/-- Read the variables of a quantifier, from the opening bracket to the colon. -/
def readVariables : List Token → Parsed (List Ident)
  | .upper x :: .comma :: ts =>
    match readVariables ts with
    | .error e => .error e
    | .ok (xs, ts) => .ok (.name x :: xs, ts)
  | .upper x :: .rbrack :: .colon :: ts => .ok ([.name x], ts)
  | .upper _ :: .rbrack :: ts => stuck ts
  | .upper _ :: ts => stuck ts
  | ts => stuck ts

/-- The formula that a connective makes of two others. -/
def Connective.apply (f g : Formula) : Connective → Formula
  | .iff => .iff f g
  | .imp => .imp f g
  | .revImp => .imp g f
  | .xor => .not (.iff f g)
  | .nor => .not (.or f g)
  | .nand => .not (.and f g)

mutual

/-- Read a quantified formula, a negation, an atom, or a formula in parentheses. -/
def readUnit : Nat → List Token → Parsed Formula
  | n + 1, .bang :: ts => readQuantified n .all ts
  | n + 1, .question :: ts => readQuantified n .ex ts
  | n + 1, .tilde :: ts =>
    match readUnit n ts with
    | .error e => .error e
    | .ok (f, ts) => .ok (.not f, ts)
  | n + 1, .lparen _ :: ts =>
    match readFormula n ts with
    | .error e => .error e
    | .ok (f, .rparen :: ts) => .ok (f, ts)
    | .ok (_, ts) => stuck ts
  | n + 1, ts => readAtom (n + 1) ts
  | 0, ts => stuck ts

/-- Read the variables and the scope of a quantifier. -/
def readQuantified : Nat → (Ident → Formula → Formula) → List Token → Parsed Formula
  | n + 1, q, .lbrack :: ts =>
    match readVariables ts with
    | .error e => .error e
    | .ok (xs, ts) =>
      match readUnit n ts with
      | .error e => .error e
      | .ok (f, ts) => .ok (xs.foldr q f, ts)
  | _, _, ts => stuck ts

/-- Read a formula: one unit, two joined by a connective, or a chain of `|` or `&`. -/
def readFormula : Nat → List Token → Parsed Formula
  | n + 1, ts =>
    match readUnit n ts with
    | .error e => .error e
    | .ok (f, .connective c :: ts) =>
      match readUnit n ts with
      | .error e => .error e
      | .ok (g, ts) => .ok (c.apply f g, ts)
    | .ok (f, .bar :: ts) => readChain n .bar .or f (.bar :: ts)
    | .ok (f, .ampersand :: ts) => readChain n .ampersand .and f (.ampersand :: ts)
    | .ok (f, ts) => .ok (f, ts)
  | 0, ts => stuck ts

/-- Read the rest of a chain of units joined by `op`; `f` is what it has come to so far. -/
def readChain : Nat → Token → (Formula → Formula → Formula) → Formula → List Token → Parsed Formula
  | n + 1, op, join, f, t :: ts =>
    if t = op then
      match readUnit n ts with
      | .error e => .error e
      | .ok (g, ts) => readChain n op join (join f g) ts
    else .ok (f, t :: ts)
  | _, _, _, f, [] => .ok (f, [])
  | 0, _, _, _, ts => stuck ts

end

/-! ## Section 5: Clauses -/

/-- Read a literal of a clause: an atom, or `~` and an atom. -/
def readLiteral (n : Nat) : List Token → Parsed Formula
  | .tilde :: ts =>
    match readAtom n ts with
    | .error e => .error e
    | .ok (f, ts) => .ok (.not f, ts)
  | ts => readAtom n ts

/-- Read the rest of a disjunction of literals; `f` is what it has come to so far. -/
def readLiterals : Nat → Formula → List Token → Parsed Formula
  | n + 1, f, .bar :: ts =>
    match readLiteral n ts with
    | .error e => .error e
    | .ok (g, ts) => readLiterals n (.or f g) ts
  | 0, _, .bar :: ts => stuck ts
  | _, f, ts => .ok (f, ts)

/-- Read a disjunction of literals. -/
def readDisjunction (n : Nat) (ts : List Token) : Parsed Formula :=
  match readLiteral n ts with
  | .error e => .error e
  | .ok (f, ts) => readLiterals n f ts

/-- Read a disjunction of literals, in parentheses or not. -/
def readClauseFormula (n : Nat) : List Token → Parsed Formula
  | .lparen _ :: ts =>
    match readDisjunction n ts with
    | .error e => .error e
    | .ok (f, .rparen :: ts) => .ok (f, ts)
    | .ok (_, ts) => stuck ts
  | ts => readDisjunction n ts

/-! ## Section 6: Whole texts -/

/-- A nesting bound that suffices for the given tokens. -/
def nesting (ts : List Token) : Nat :=
  2 * ts.length + 2

/-- The value of a phrase that takes up all tokens. -/
def complete {α : Type} : Parsed α → Except ParseError α
  | .error e => .error e
  | .ok (a, []) => .ok a
  | .ok (_, _ :: _) => .error .unexpected

/-- Read a whole text as one phrase. -/
def parseWith {α : Type} (read : Nat → List Token → Parsed α) (text : String) :
    Except ParseError α :=
  match scan text with
  | none => .error .unexpected
  | some ts => complete (read (nesting ts) ts)

/-- The formula that a text spells. -/
def parseFormula (text : String) : Except ParseError Formula :=
  parseWith readFormula text

/-- The term that a text spells. -/
def parseTerm (text : String) : Except ParseError Term :=
  parseWith readTerm text

end Clausal.Tptp
