import AlertAudit.Template.ScanError
import AlertAudit.Template.Token
import AlertAudit.Text.Alphanumeric

/-!
Templates as tokens. Outside of actions everything up to the next `{{` is one text token. Inside,
`read` finds the longest token at the front of the input by its kind and the number of characters
that follow the first one, so every token takes at least one character. The first thing that is
no token ends the scan: what is left becomes one `lexError` token.
-/

set_option autoImplicit false

namespace AlertAudit.Template.Scan

open AlertAudit.Text

/-- White space inside an action. -/
def isSpace (c : Char) : Bool := c = ' ' || c = '\t' || c = '\r' || c = '\n'

def isWordStart (c : Char) : Bool := c.isAlpha || c = '_'

def isWordChar (c : Char) : Bool := c.isAlphanum || c = '_'

/-- A character that would run on from a number. -/
def continuesNumber (c : Char) : Bool := c = '_' || isAlphanumeric c

/-- The length of the longest prefix of characters in a class. -/
def run (p : Char → Bool) (cs : List Char) : Nat := (cs.takeWhile p).length

/-- The length of the right delimiter at the front, with or without its trim marker. -/
def rightDelim? : List Char → Option Nat
  | '}' :: '}' :: _ => some 2
  | c :: '-' :: '}' :: '}' :: _ => if isSpace c then some 4 else none
  | _ => none

/-- A place where a word may end. -/
def atTerminator : List Char → Bool
  | [] => true
  | c :: cs =>
    isSpace c || c = '.' || c = ',' || c = '|' || c = ':' || c = ')' || c = '(' ||
      (c = '}' && cs.head? = some '}')

/-- The length of an exponent, which may lack its digits; zero where there is none. -/
def exponentLength : List Char → Nat
  | c :: cs =>
    if c = 'e' || c = 'E' then
      match cs with
      | s :: r =>
        if s = '+' || s = '-' then 2 + run (fun d ↦ d.isDigit || d = '_') r
        else 1 + run (fun d ↦ d.isDigit || d = '_') cs
      | [] => 1
    else 0
  | [] => 0

/-- The length of a run of digits and underscores with the exponent behind it. -/
def mantissaLength (cs : List Char) : Nat :=
  let n := run (fun d ↦ d.isDigit || d = '_') cs
  n + exponentLength (cs.drop n)

/-- The length of a decimal number whose first digit has been read. -/
def decimalLength (cs : List Char) : Nat :=
  let n := run (fun d ↦ d.isDigit || d = '_') cs
  match cs.drop n with
  | '.' :: r => n + 1 + mantissaLength r
  | r => n + exponentLength r

/-- The length of a number without its sign and without an imaginary mark. -/
def magnitudeLength? : List Char → Option Nat
  | '0' :: c :: cs =>
    if c = 'x' || c = 'X' then
      some (2 + run (fun d ↦ d.isDigit || ('a' ≤ d && d ≤ 'f') || ('A' ≤ d && d ≤ 'F') || d = '_')
        cs)
    else if c = 'o' || c = 'O' then some (2 + run (fun d ↦ ('0' ≤ d && d ≤ '7') || d = '_') cs)
    else if c = 'b' || c = 'B' then some (2 + run (fun d ↦ d = '0' || d = '1' || d = '_') cs)
    else some (1 + decimalLength (c :: cs))
  | '.' :: d :: cs => if d.isDigit then some (2 + mantissaLength cs) else none
  | c :: cs => if c.isDigit then some (1 + decimalLength cs) else none
  | [] => none

/-- The length of an unsigned number at the front. -/
def unsignedLength? (cs : List Char) : Option Nat :=
  (magnitudeLength? cs).map fun n ↦ if (cs.drop n).head? = some 'i' then n + 1 else n

/-- The length of a number at the front, with its sign. -/
def numberLength? : List Char → Option Nat
  | [] => none
  | c :: cs =>
    if c = '+' || c = '-' then (unsignedLength? cs).map (1 + ·) else unsignedLength? (c :: cs)

/-- The length up to and with the closing `quote`, past escaped characters, on one line. -/
def quotedLength? (quote : Char) : List Char → Option Nat
  | [] => none
  | '\\' :: c :: cs => if c = '\n' then none else (quotedLength? quote cs).map (2 + ·)
  | c :: cs =>
    if c = quote then some 1
    else if c = '\\' || c = '\n' then none
    else (quotedLength? quote cs).map (1 + ·)

/-- The length up to and with the closing back quote. -/
def rawLength? : List Char → Option Nat
  | [] => none
  | c :: cs => if c = '`' then some 1 else (rawLength? cs).map (1 + ·)

/-- The longest token at the front of `c :: cs`: its kind and how many characters follow `c`. -/
def read (c : Char) (cs : List Char) : Except ScanError (TokenKind × Nat) :=
  if isSpace c then
    let n := run isSpace cs
    -- the last space belongs to a trim marker behind it
    .ok (.whitespace, if (['-', '}', '}'] : List Char).isPrefixOf (cs.drop n) then n - 1 else n)
  else if isWordStart c then
    let n := run isWordChar cs
    .ok (.ofWord (String.ofList (c :: cs.take n)), n)
  else if c.isDigit || c = '+' || c = '-' then
    match numberLength? (c :: cs) with
    | some n => number n
    | none => .error (.badNumber (String.ofList (c :: cs.take 1)))
  else match c with
    | '(' => .ok (.parenOpen, 0)
    | ')' => .ok (.parenClose, 0)
    | '|' => .ok (.pipe, 0)
    | ',' => .ok (.comma, 0)
    | '=' => .ok (.assign, 0)
    | ':' => if cs.head? = some '=' then .ok (.declare, 1) else .error .loneColon
    | '$' => .ok (.variable, run isWordChar cs)
    | '.' =>
      match cs with
      | d :: r =>
        if isWordStart d then .ok (.field, 1 + run isWordChar r)
        else match numberLength? (c :: cs) with
          | some n => number n
          | none => .ok (.dot, 0)
      | [] => .ok (.dot, 0)
    | '"' => ((quotedLength? '"' cs).map (TokenKind.str, ·)).elim (.error .unterminatedString) .ok
    | '`' => ((rawLength? cs).map (TokenKind.rawStr, ·)).elim (.error .unterminatedRawString) .ok
    | '\'' =>
      ((quotedLength? '\'' cs).map (TokenKind.charLit, ·)).elim (.error .unterminatedChar) .ok
    | _ => .error (.unrecognizedChar c)
where
  /-- A number of `n` characters, unless a letter runs on from it. -/
  number (n : Nat) : Except ScanError (TokenKind × Nat) :=
    match (cs.drop (n - 1)).head? with
    | some d =>
      if continuesNumber d then .error (.badNumber (String.ofList (c :: cs.take n)))
      else .ok (.number, n - 1)
    | none => .ok (.number, n - 1)

/-- Lexemes read so far, and either what follows them or why nothing follows. -/
structure Result (α : Type) where
  lexemes : List Lexeme
  outcome : Except ScanError α

namespace Result

def cons {α : Type} (kind : TokenKind) (chars : List Char) (r : Result α) : Result α :=
  { r with lexemes := ⟨kind, chars⟩ :: r.lexemes }

/-- Gives up before `rest`. -/
def fail {α : Type} (rest : List Char) (e : ScanError) : Result α :=
  ⟨[⟨.lexError, rest⟩], .error e⟩

end Result

/-- The error of a word that runs into what follows it. -/
def missingTerminator? (kind : TokenKind) (rest : List Char) : Option ScanError :=
  if kind.needsTerminator && !atTerminator rest then rest.head?.map .missingTerminator else none

/-- Scans an action behind its left delimiter, with `depth` parentheses open. What follows the
right delimiter is the outcome. -/
def scanAction (depth : Nat) (cs : List Char) : Result (List Char) :=
  match rightDelim? cs with
  | some n =>
    if depth > 0 then .fail cs .unclosedParen
    else ⟨[⟨.rightDelim, cs.take n⟩], .ok (cs.drop n)⟩
  | none =>
    match cs with
    | [] => .fail [] .unclosedAction
    | c :: cs =>
      match read c cs with
      | .error e => .fail (c :: cs) e
      | .ok (kind, n) =>
        let chars := c :: cs.take n
        let rest := cs.drop n
        if kind = .parenClose && depth = 0 then .fail (c :: cs) .unexpectedParen
        else if let some e := missingTerminator? kind rest then
          .cons kind chars (.fail rest e)
        else
          let depth := match kind with
            | .parenOpen => depth + 1
            | .parenClose => depth - 1
            | _ => depth
          .cons kind chars (scanAction depth rest)
termination_by cs.length
decreasing_by
  simp only [List.length_cons, List.length_drop]
  omega

theorem length_of_scanAction {depth : Nat} {cs rest : List Char}
    (h : (scanAction depth cs).outcome = .ok rest) : rest.length ≤ cs.length := by
  fun_induction scanAction depth cs with
  | case2 depth cs n _ _ =>
    simp only [Except.ok.injEq] at h
    simp [← h]
  | case7 depth c cs kind n _ chars after _ depth' _ _ ih =>
    have := ih h
    simp only [after, List.length_drop] at this
    simp only [List.length_cons]
    omega
  | _ => simp [Result.fail, Result.cons] at h

/-- The text up to `mark`, and what follows from there on. -/
def splitBefore (mark : List Char) : List Char → List Char × List Char
  | [] => ([], [])
  | c :: cs =>
    if mark.isPrefixOf (c :: cs) then ([], c :: cs)
    else ((c :: (splitBefore mark cs).1), (splitBefore mark cs).2)

theorem length_splitBefore_snd (mark cs : List Char) :
    (splitBefore mark cs).2.length ≤ cs.length := by
  induction cs with
  | nil => simp [splitBefore]
  | cons c cs ih =>
    simp only [splitBefore]
    split
    · simp
    · simp only [List.length_cons]
      omega

/-- The length of the trim marker right behind a left delimiter. -/
def trimMarkerLength : List Char → Nat
  | '-' :: c :: _ => if isSpace c then 2 else 0
  | _ => 0

/-- What follows the comment whose opening mark comes right before `cs`. -/
def afterComment (cs : List Char) : Except ScanError (List Char) :=
  match (splitBefore ['*', '/'] cs).2 with
  | [] => .error .unclosedComment
  | close =>
    match rightDelim? (close.drop 2) with
    | none => .error .commentNotLast
    | some n => .ok (close.drop (2 + n))

theorem length_of_afterComment {cs rest : List Char} (h : afterComment cs = .ok rest) :
    rest.length ≤ cs.length := by
  have := length_splitBefore_snd ['*', '/'] cs
  unfold afterComment at h
  split at h
  · exact absurd h (by simp)
  · split at h
    · exact absurd h (by simp)
    · simp only [Except.ok.injEq] at h
      simp only [← h, List.length_drop]
      omega

/-- Scans a template from outside of an action. -/
def scanText : List Char → Result Unit
  | [] => ⟨[], .ok ()⟩
  | '{' :: '{' :: tail =>
    let marker := trimMarkerLength tail
    let inner := tail.drop marker
    if (['/', '*'] : List Char).isPrefixOf inner then
      match _h : afterComment (inner.drop 2) with
      | .error e => .fail ('{' :: '{' :: tail) e
      | .ok rest =>
        .cons .comment ('{' :: '{' :: tail.take (tail.length - rest.length)) (scanText rest)
    else
      let action := scanAction 0 inner
      let opening : Lexeme := ⟨.leftDelim, '{' :: '{' :: tail.take marker⟩
      match _h : action.outcome with
      | .error e => ⟨opening :: action.lexemes, .error e⟩
      | .ok rest =>
        let r := scanText rest
        ⟨opening :: action.lexemes ++ r.lexemes, r.outcome⟩
  | c :: tail =>
    -- the first character starts no delimiter
    .cons .text (c :: (splitBefore ['{', '{'] tail).1) (scanText (splitBefore ['{', '{'] tail).2)
termination_by cs => cs.length
decreasing_by
  · have := length_of_afterComment _h
    simp only [inner, List.length_drop, List.length_cons] at this ⊢
    omega
  · have := length_of_scanAction _h
    simp only [inner, List.length_drop, List.length_cons] at this ⊢
    omega
  · have := length_splitBefore_snd ['{', '{'] tail
    simp only [List.length_cons]
    omega

end AlertAudit.Template.Scan

namespace AlertAudit.Template

/-- The tokens of a template. An error stands for a last token of the kind `lexError`. -/
structure Tokens where
  tokens : List Token
  error : Option ScanError
  deriving Repr

/-- Splits a template into tokens. -/
def Tokens.ofText (text : String) : Tokens :=
  let r := Scan.scanText text.toList
  ⟨Token.place 0 r.lexemes, match r.outcome with
    | .ok () => none
    | .error e => some e⟩

end AlertAudit.Template
