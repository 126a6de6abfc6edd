/-!
Places in source text.

Lines and columns count from 1 and columns count UTF-8 bytes. A `Position` is the place of one
character; a `Span` is the place where something starts, with its length in bytes. All of them are
natural numbers, so nothing is said about texts of 2^32 bytes and more, where counting in 32 bits
would wrap.
-/

namespace Idl

structure Position where
  line : Nat
  col : Nat
deriving DecidableEq, Repr

namespace Position

def start : Position := ⟨1, 1⟩

/-- The place after one more character. -/
def next (p : Position) (c : Char) : Position :=
  if c = '\n' then ⟨p.line + 1, 1⟩ else ⟨p.line, p.col + c.utf8Size⟩

def after (p : Position) (text : List Char) : Position :=
  text.foldl next p

@[simp] theorem after_nil (p : Position) : p.after [] = p := rfl

@[simp] theorem after_cons (p : Position) (c : Char) (text : List Char) :
    p.after (c :: text) = (p.next c).after text := rfl

theorem after_append (p : Position) (text more : List Char) :
    p.after (text ++ more) = (p.after text).after more :=
  List.foldl_append

end Position

def byteLength (text : List Char) : Nat :=
  text.foldl (fun length c => length + c.utf8Size) 0

/-- Where something starts, and how many bytes it covers. A span that crosses lines keeps its
start, and its length is the sum of the lengths of its parts. -/
structure Span where
  line : Nat
  col : Nat
  len : Nat
deriving DecidableEq, Repr, Inhabited

namespace Span

def point (line col : Nat) : Span := ⟨line, col, 0⟩

def of (p : Position) (text : List Char) : Span := ⟨p.line, p.col, byteLength text⟩

/-- The column after the last byte, for a span on one line. -/
def endCol (s : Span) : Nat := s.col + s.len

/-- A span that covers both spans when they lie on one line. Across lines it starts where the
first one starts and has the length of both. -/
def merge (s t : Span) : Span :=
  if s.line = t.line then
    let col := min s.col t.col
    ⟨s.line, col, max s.endCol t.endCol - col⟩
  else ⟨s.line, s.col, s.len + t.len⟩

/-- The start of the span as text, `line:column`. -/
def text (s : Span) : String := s!"{s.line}:{s.col}"

end Span

/-- A source file of a compilation. File 0 is the standard library. -/
structure FileId where
  index : Nat
deriving DecidableEq, Repr

namespace FileId

def library : FileId := ⟨0⟩

def text (file : FileId) : String := s!"file_{file.index}"

end FileId

structure Location where
  file : FileId
  span : Span
deriving DecidableEq, Repr

namespace Location

def text (location : Location) : String := s!"{location.file.text}:{location.span.text}"

end Location

end Idl
