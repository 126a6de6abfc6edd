import Idl.Token.Source

/-!
Tokens read one at a time.

A `TokenStream` hands out the tokens of a text one after the other, lets its user look ahead by any
number of tokens, and keeps the faults that were found until they are taken.
-/

namespace Idl

/-- A source being read: the text not scanned yet, the tokens scanned but not handed out, and the
faults found but not taken. -/
structure TokenStream where
  source : Source
  ahead : List Token := []
  errors : List LexError := []

namespace TokenStream

def ofString (text : String) : TokenStream := { source := .ofString text }

/-- Scans one token. At the end of the text that is the end of the file, again and again. -/
def scan (s : TokenStream) : Token × TokenStream :=
  let (scanned, source) := s.source.scan
  (scanned.token, { s with source, errors := s.errors ++ scanned.errors })

def next (s : TokenStream) : Token × TokenStream :=
  match s.ahead with
  | token :: ahead => (token, { s with ahead })
  | [] => s.scan

/-- Scans `n` more tokens ahead, or as many as are left up to the end of the file. -/
def fetch (s : TokenStream) (n : Nat) : TokenStream :=
  let (scanned, source) := s.source.scanMany n
  { source
    ahead := s.ahead ++ scanned.map (·.token)
    errors := s.errors ++ scanned.flatMap (·.errors) }

/-- The token that the `n`-th call of `next` from here on will hand out, counted from 0. Where
fewer tokens than that are left, it is the end of the file. -/
def peek (s : TokenStream) (n : Nat) : Token × TokenStream :=
  let s := s.fetch (n + 1 - s.ahead.length)
  match s.ahead[n]? with
  | some token => (token, s)
  | none => s.scan

/-- The faults found since they were last taken. -/
def takeErrors (s : TokenStream) : List LexError × TokenStream :=
  (s.errors, { s with errors := [] })

end TokenStream

end Idl
