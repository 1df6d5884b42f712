import Clausal.Tptp.Grammar

/-!
# Problem documents

A document is a sequence of annotated formulas and of directives that include other documents, all
of whose formulas, or a selection of them by name, take the directive's place.

Included documents are looked up in a tree of files, always relative to one base directory, however
deeply the directives nest.

## Main definitions

- `Annotated`, `Statement`, `parseDocument`
- `FileTree`, `FileTree.read`
- `expandDocument`, `documentOfFile`: documents with their includes
-/

namespace Clausal.Tptp

/-! ## Section 1: Statements -/

/-- A formula with its name and role. -/
structure Annotated where
  name : String
  role : String
  formula : Formula
  deriving Repr, Inhabited

/-- The parts of a document. -/
inductive Statement where
  | formula (f : Annotated)
  /-- Include the document of the given name: all of it, or the formulas of the given names. -/
  | inclusion (file : String) (selection : Option (List String))
  deriving Repr, Inhabited

/-- The roles of formulas. -/
def roles : List String :=
  ["axiom", "hypothesis", "definition", "assumption", "lemma", "theorem", "corollary",
    "conjecture", "negated_conjecture", "plain", "unknown"]

/-- The name that a token gives to a formula. -/
def formulaName? : Token → Option String
  | .lower s => some s
  | .quoted s => some s
  | .digits s => some s
  | _ => none

/-- Read the name of a formula. -/
def readName : List Token → Parsed String
  | [] => .error .incomplete
  | t :: ts =>
    match formulaName? t with
    | some s => .ok (s, ts)
    | none => .error .unexpected

/-- Read the names of a selection, up to the closing bracket. -/
def readNames : List Token → Parsed (List String)
  | t :: .comma :: ts =>
    match formulaName? t with
    | none => .error .unexpected
    | some s =>
      match readNames ts with
      | .error e => .error e
      | .ok (names, ts) => .ok (s :: names, ts)
  | t :: .rbrack :: ts =>
    match formulaName? t with
    | none => .error .unexpected
    | some s => .ok ([s], ts)
  | t :: ts =>
    match formulaName? t with
    | none => .error .unexpected
    | some _ => stuck ts
  | [] => .error .incomplete

/-- Read the role of a formula. -/
def readRole : List Token → Parsed String
  | [] => .error .incomplete
  | .lower s :: ts => if s ∈ roles then .ok (s, ts) else .error .unexpected
  | _ :: _ => .error .unexpected

/-- Read an annotated formula after its opening parenthesis; `read` reads the formula itself. -/
def readAnnotated (read : List Token → Parsed Formula) (ts : List Token) :
    Except ParseError (Statement × List Token) := do
  let (name, ts) ← readName ts
  let ts ← expect .comma ts
  let (role, ts) ← readRole ts
  let ts ← expect .comma ts
  let (formula, ts) ← read ts
  let ts ← expect .rparenDot ts
  return (.formula { name, role, formula }, ts)

/-- Read an include directive after its opening parenthesis. -/
def readInclude : List Token → Except ParseError (Statement × List Token)
  | .quoted file :: .comma :: ts => do
    let ts ← expect .lbrack ts
    let (names, ts) ← readNames ts
    let ts ← expect .rparenDot ts
    return (.inclusion file (some names), ts)
  | .quoted file :: ts => do
    let ts ← expect .rparenDot ts
    return (.inclusion file none, ts)
  | ts => stuck ts

/-- Read one statement. -/
def readStatement (n : Nat) : List Token → Parsed Statement
  | .lower "fof" :: .lparen true :: ts => readAnnotated (readFormula n) ts
  | .lower "cnf" :: .lparen true :: ts => readAnnotated (readClauseFormula n) ts
  | .lower "include" :: .lparen true :: ts => readInclude ts
  | [] => .error .incomplete
  | _ :: _ => .error .unexpected

/-- Read statements up to the end, at most as many as the first argument says. -/
def readStatements : Nat → List Token → Except ParseError (List Statement)
  | _, [] => .ok []
  | 0, _ :: _ => .error .unexpected
  | n + 1, t :: ts =>
    match readStatement (nesting (t :: ts)) (t :: ts) with
    | .error e => .error e
    | .ok (s, rest) =>
      match readStatements n rest with
      | .error e => .error e
      | .ok ss => .ok (s :: ss)

/-- The statements that a text spells. -/
def parseDocument (text : String) : Except ParseError (List Statement) :=
  match scan text with
  | none => .error .unexpected
  | some ts => readStatements ts.length ts

/-! ## Section 2: Files -/

/-- Why a file could not be read. -/
inductive FileError where
  | missing
  | isDirectory
  | notDirectory
  deriving DecidableEq, Repr, Inhabited

/-- A tree of files: the parts of each file's path, and its text. -/
structure FileTree where
  files : List (List String × String)
  deriving Inhabited

/-- The parts of a path, without empty ones. -/
def pathParts (path : String) : List String :=
  (path.splitOn "/").filter (· ≠ "")

namespace FileTree

/-- The file tree with the given paths and texts. -/
def ofList (files : List (String × String)) : FileTree :=
  ⟨files.map fun f => (pathParts f.1, f.2)⟩

/-- Whether a directory is in the tree: the root, or a proper initial part of some file's path. -/
def isDirectory (tree : FileTree) (path : List String) : Bool :=
  path.isEmpty || tree.files.any fun f => path.isPrefixOf f.1 && path.length < f.1.length

/-- The text of the file with exactly the given path. -/
def text? (tree : FileTree) (path : List String) : Option String :=
  (tree.files.find? fun f => f.1 = path).map Prod.snd

/-- Follow the parts of a path from a directory.  `.` stays and `..` goes up; above the root there
    are directories, but no name leads back into the tree. -/
def follow (tree : FileTree) : List String → List String → Except FileError (List String)
  | dir, [] => .ok dir
  | dir, part :: parts =>
    if tree.isDirectory dir then
      if part = "." then tree.follow dir parts
      else if part = ".." then
        if dir.isEmpty then
          .error (if parts.all fun p => p = "." || p = ".." then .isDirectory else .missing)
        else tree.follow dir.dropLast parts
      else tree.follow (dir ++ [part]) parts
    else if (tree.text? dir).isSome then .error .notDirectory
    else .error .missing

/-- The text of the file at a path relative to a directory; a path from the root of the system is
    not in the tree. -/
def read (tree : FileTree) (dir : List String) (path : String) : Except FileError String :=
  if path.startsWith "/" then .error .missing
  else
    match tree.follow [] (dir ++ pathParts path) with
    | .error e => .error e
    | .ok full =>
      if tree.isDirectory full then .error .isDirectory
      else if path.endsWith "/" && (tree.text? full).isSome then .error .notDirectory
      else
        match tree.text? full with
        | some text => .ok text
        | none => .error .missing

end FileTree

/-- The same text with every line break written as a line feed. -/
def unifyNewlines : List Char → List Char
  | '\r' :: '\n' :: cs => '\n' :: unifyNewlines cs
  | '\r' :: cs => '\n' :: unifyNewlines cs
  | c :: cs => c :: unifyNewlines cs
  | [] => []

/-! ## Section 3: Documents with includes -/

/-- Why a document could not be read.  `inclusion` stands for an error inside an included
    document. -/
inductive DocumentError where
  | parse (e : ParseError)
  | file (e : FileError)
  | inclusion (cause : DocumentError)
  deriving DecidableEq, Repr, Inhabited

/-- The formulas of a document, with those that `included` finds for a file and a selection in
    place of each include directive. -/
def expandWith (included : String → Option (List String) → Except DocumentError (List Annotated))
    (text : String) : Except DocumentError (List Annotated) :=
  match parseDocument text with
  | .error e => .error (.parse e)
  | .ok statements => do
    let parts ← statements.mapM fun s =>
      match s with
      | .formula f => .ok [f]
      | .inclusion file selection => included file selection
    return parts.flatten

/-- The formulas that a selection keeps. -/
def selected : Option (List String) → List Annotated → List Annotated
  | none, fs => fs
  | some names, fs => fs.filter fun f => f.name ∈ names

/-- The formulas of a document, with those of included documents in place.  `dir` is the base
    directory of includes and the first argument bounds how deeply they nest. -/
def expandDocument (tree : FileTree) (dir : List String) :
    Nat → String → Except DocumentError (List Annotated)
  | 0, text => expandWith (fun _ _ => .error (.inclusion (.file .missing))) text
  | depth + 1, text =>
    expandWith (fun file selection =>
      match tree.read dir file with
      | .error e => .error (.inclusion (.file e))
      | .ok text =>
        match expandDocument tree dir depth (String.ofList (unifyNewlines text.toList)) with
        | .error e => .error (.inclusion e)
        | .ok fs => .ok (selected selection fs)) text

/-- The formulas of a text that stands outside the tree. -/
def documentOfText (tree : FileTree) (dir : String) (text : String) :
    Except DocumentError (List Annotated) :=
  expandDocument tree (pathParts dir) tree.files.length text

/-- The formulas of a file in the tree.  Without a base directory for includes, the directory of the
    file is it. -/
def documentOfFile (tree : FileTree) (dir : Option String) (path : String) :
    Except DocumentError (List Annotated) :=
  match tree.read [] path with
  | .error e => .error (.file e)
  | .ok text =>
    let base := match dir with
      | some d => pathParts d
      | none => (pathParts path).dropLast
    expandDocument tree base tree.files.length (String.ofList (unifyNewlines text.toList))

end Clausal.Tptp
