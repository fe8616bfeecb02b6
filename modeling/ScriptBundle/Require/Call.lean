import ScriptBundle.Identifier
import ScriptBundle.Log.Event
import ScriptBundle.Text.Blank

/-! Require calls in a script's text. A call begins at a `require(` that neither a name nor a dot
precedes, and ends where its parentheses balance; strings and comments are not told apart here. -/
namespace ScriptBundle

/-- A text cut into its require calls and the single characters between them. -/
inductive Piece
  | plain (c : Char)
  | call (source argument : Text)
  deriving DecidableEq

namespace Piece

def text : Piece → Text
  | plain c => [c]
  | call source _ => source

end Piece

/-- The pieces of a text; when the parentheses of a call never balance, those before that call, and
its offset. -/
structure Scan where
  pieces : List Piece
  unbalanced : Option Nat
  deriving DecidableEq

/-- A call with its place in the text: where it begins and where it has ended. -/
structure Call where
  start : Nat
  stop : Nat
  argument : Text
  deriving DecidableEq

namespace Require

def keyword : Text := ['r', 'e', 'q', 'u', 'i', 'r', 'e', '(']

/-- The text up to the parenthesis that closes `depth` more than one that are open. -/
def untilClosed : Nat → Text → Option Text
  | _, [] => none
  | depth, c :: rest =>
    if c = ')' then
      match depth with
      | 0 => some []
      | outer + 1 => (untilClosed outer rest).map (c :: ·)
    else if c = '(' then (untilClosed (depth + 1) rest).map (c :: ·)
    else (untilClosed depth rest).map (c :: ·)

theorem append_of_untilClosed {depth : Nat} {text inner : Text}
    (h : untilClosed depth text = some inner) : ∃ rest, text = inner ++ ')' :: rest := by
  induction text generalizing depth inner with
  | nil => simp [untilClosed] at h
  | cons c text ih =>
    have hmap : ∀ d, (untilClosed d text).map (c :: ·) = some inner →
        ∃ rest, c :: text = inner ++ ')' :: rest := by
      intro d hd
      obtain ⟨more, hmore, rfl⟩ := Option.map_eq_some_iff.mp hd
      obtain ⟨rest, rfl⟩ := ih hmore
      exact ⟨rest, rfl⟩
    unfold untilClosed at h
    split at h
    · next hc =>
      subst hc
      cases depth with
      | zero => cases h; exact ⟨text, rfl⟩
      | succ outer => exact hmap outer h
    · split at h
      · exact hmap _ h
      · exact hmap _ h

def isQuote (c : Char) : Bool := c == '\'' || c == '"' || c == '\x60'

/-- The text without the quotes at its two ends, when both are the same. -/
def unquote : Text → Text
  | [] => []
  | c :: rest => if isQuote c && rest.getLast? == some c then rest.dropLast else c :: rest

/-- Whether `require` can begin a call after this text, of which the last character comes first. -/
def opensAfter : Text → Bool
  | [] => true
  | c :: _ => !isIdentifierChar c && c != '.'

inductive Site
  | plain
  | call (source argument : Text)
  | unbalanced

def siteAt (before text : Text) : Site :=
  match Text.after? keyword text with
  | some rest =>
    if opensAfter before then
      match untilClosed 0 rest with
      | some inner => .call (keyword ++ inner ++ [')']) (unquote (Text.trim inner))
      | none => .unbalanced
    else .plain
  | none => .plain

theorem siteAt_call {before text source argument : Text}
    (h : siteAt before text = .call source argument) :
    source ≠ [] ∧ ∃ rest, text = source ++ rest := by
  unfold siteAt at h
  split at h
  · next rest hrest =>
    rw [Text.after?_eq_some_iff] at hrest
    split at h
    · split at h
      · next inner hinner =>
        obtain ⟨more, rfl⟩ := append_of_untilClosed hinner
        cases h
        exact ⟨by simp [keyword], more, by simp [hrest]⟩
      · cases h
    · cases h
  · cases h

/-- The scan of a text after `skip` characters that belong to a call already found. -/
def scanFrom (before : Text) (offset : Nat) : Nat → Text → Scan
  | _, [] => ⟨[], none⟩
  | skip + 1, c :: rest => scanFrom (c :: before) (offset + c.utf8Size) skip rest
  | 0, c :: rest =>
    match siteAt before (c :: rest) with
    | .plain =>
      let s := scanFrom (c :: before) (offset + c.utf8Size) 0 rest
      ⟨.plain c :: s.pieces, s.unbalanced⟩
    | .call source argument =>
      let s := scanFrom (c :: before) (offset + c.utf8Size) (source.length - 1) rest
      ⟨.call source argument :: s.pieces, s.unbalanced⟩
    | .unbalanced => ⟨[], some offset⟩

def scan (text : Text) : Scan := scanFrom [] 0 0 text

theorem text_scanFrom {before : Text} {offset skip : Nat} {text : Text}
    (h : (scanFrom before offset skip text).unbalanced = none) :
    (scanFrom before offset skip text).pieces.flatMap Piece.text = text.drop skip := by
  induction text generalizing before offset skip with
  | nil => simp [scanFrom]
  | cons c text ih =>
    cases skip with
    | succ skip => simpa [scanFrom] using ih (by simpa [scanFrom] using h)
    | zero =>
      cases hs : siteAt before (c :: text) with
      | plain =>
        simp only [scanFrom, hs] at h ⊢
        simpa [Piece.text] using ih h
      | call source argument =>
        simp only [scanFrom, hs] at h ⊢
        obtain ⟨hne, rest, hrest⟩ := siteAt_call hs
        obtain ⟨d, source, rfl⟩ := List.exists_cons_of_ne_nil hne
        obtain ⟨rfl, rfl⟩ : c = d ∧ text = source ++ rest := by simpa using hrest
        simpa [Piece.text] using ih h
      | unbalanced => simp [scanFrom, hs] at h

theorem text_scan {text : Text} (h : (scan text).unbalanced = none) :
    (scan text).pieces.flatMap Piece.text = text := by
  simpa [scan] using text_scanFrom h

end Require

namespace Scan

def callsFrom (offset : Nat) : List Piece → List Call
  | [] => []
  | .plain c :: rest => callsFrom (offset + c.utf8Size) rest
  | .call source argument :: rest =>
    ⟨offset, offset + Text.width source, argument⟩ :: callsFrom (offset + Text.width source) rest

def calls (s : Scan) : List Call := callsFrom 0 s.pieces

def message (offset : Nat) : String :=
  s!"unbalanced parentheses in require call at byte {offset}"

def events (s : Scan) : List Event := s.calls.map fun c => .found c.argument c.start c.stop

end Scan

/-- Calls whose argument begins with a dot name a file; all others are left alone. -/
def isRelative (argument : Text) : Bool := argument.head? == some '.'

end ScriptBundle
