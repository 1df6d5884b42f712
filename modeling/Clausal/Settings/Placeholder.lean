import Clausal.Settings.Scalar

/-!
# Placeholders in settings

A text of the form `${NAME}` or `${NAME:default}` is a placeholder.  It is replaced by the value of
the environment's variable of that name, or by the default, read as a plain value.

## Main definitions

- `placeholder?`: the name and default of a placeholder
- `Setting.resolve`: all placeholders of a tree of settings replaced
- `defaultSettings`
-/

namespace Clausal

/-- What follows the name in a placeholder: the default, up to a closing brace at the end. -/
def placeholderDefault? (cs : List Char) : Option (List Char) :=
  match cs.dropWhile (· ≠ '\x7d') with
  | ['\x7d'] | ['\x7d', '\n'] => some (cs.takeWhile (· ≠ '\x7d'))
  | _ => none

/-- The name and the default of a placeholder, without a default an empty one.  The name is not
    empty, and a line feed may follow. -/
def placeholder? : List Char → Option (String × String)
  | '$' :: '\x7b' :: cs =>
    let isNameChar (c : Char) : Bool := c ≠ '\x7d' && c ≠ ':'
    match cs.takeWhile isNameChar, cs.dropWhile isNameChar with
    | [], _ => none
    | name, ':' :: rest =>
      (placeholderDefault? rest).map fun d => (String.ofList name, String.ofList d)
    | name, ['\x7d'] | name, ['\x7d', '\n'] => some (String.ofList name, "")
    | _, _ => none
  | _ => none

/-- The value of a text: of the placeholder that it is, or the text itself. -/
def resolveText (env : String → Option String) (s : String) : Except TextError Setting :=
  match placeholder? s.toList with
  | none => .ok (.text s)
  | some (name, fallback) => Setting.ofText ((env name).getD fallback)

mutual

/-- Replace the placeholders of a value. -/
def Setting.resolve (env : String → Option String) : Setting → Except TextError Setting
  | .text s => resolveText env s
  | .list items => return .list (← Settings.resolve env items)
  | .table t => return .table (← Table.resolve env t)
  | v => .ok v

/-- Replace the placeholders of several values. -/
def Settings.resolve (env : String → Option String) : Settings → Except TextError Settings
  | .nil => .ok .nil
  | .cons v vs => return .cons (← Setting.resolve env v) (← Settings.resolve env vs)

/-- Replace the placeholders among the values of a table, not among its keys. -/
def Table.resolve (env : String → Option String) : Table → Except TextError Table
  | .nil => .ok .nil
  | .cons k v t => return .cons k (← Setting.resolve env v) (← Table.resolve env t)

end

/-- The settings of a file; a file with a void value has none. -/
def Setting.load (env : String → Option String) (content : Setting) : Except TextError Setting :=
  if content.isVoid then .ok (.table .nil) else content.resolve env

/-- A placeholder text for the variable of a name and a default. -/
def placeholderText (name fallback : String) : Setting :=
  .text ("$\x7b" ++ name ++ ":" ++ fallback ++ "\x7d")

/-- The settings to start from.  The names of the environment's variables start with a word that
    the user of the library chooses. -/
def defaultSettings (word : String) : Setting :=
  .table (.ofList [
    ("logging", .table (.ofList [
      ("level", placeholderText (word ++ "_LOG_LEVEL") "WARNING"),
      ("format", .text "%(asctime)s [%(levelname)s] %(name)s: %(message)s")])),
    ("resolution", .table (.ofList [
      ("strategy", placeholderText (word ++ "_RESOLUTION_STRATEGY") "fifo"),
      ("show_progress", placeholderText (word ++ "_SHOW_PROGRESS") "false")])),
    ("formatting", .table (.ofList [
      ("skolem_labels", .text "ABCDEFGHIJKLMNOPQRSTUVWXYZ")]))])

end Clausal
