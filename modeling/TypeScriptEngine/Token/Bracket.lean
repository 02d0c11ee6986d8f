import TypeScriptEngine.Token.Stream

/-!
# Brackets

The partner of an opening bracket.  A parenthesis, bracket or brace is closed by the first closer of
its own kind that balances it, whatever stands in between; brackets of other kinds are not looked
at.  The angle brackets of a type argument list are closed only if everything in between can be part
of types.
-/

namespace TypeScriptEngine.TokenStream

/-- How many tokens precede the closer that balances `depth + 1` open brackets of a kind. -/
def closerOffset? (opener closer : TokenKind) (depth : Nat) : TokenStream → Option Nat
  | [] => none
  | t :: rest =>
    if t.kind = opener then (closerOffset? opener closer (depth + 1) rest).map (· + 1)
    else if t.kind = closer then
      match depth with
      | 0 => some 0
      | depth + 1 => (closerOffset? opener closer depth rest).map (· + 1)
    else (closerOffset? opener closer depth rest).map (· + 1)

/-- For a stream that begins with an opening bracket, the offset of its closer. -/
def bracketSpan? : TokenStream → Option Nat
  | [] => none
  | t :: rest => t.kind.closer?.bind fun closer =>
    (closerOffset? t.kind closer 0 rest).map (· + 1)

/-- Tokens that cannot stand in a type argument list outside its brackets. -/
def endsTypeArguments : TokenKind → Bool
  | .semicolon | .eof | .rparen | .rbracket | .rbrace | .bang | .operator => true
  | _ => false

/-- How many tokens precede the angle bracket that closes `depth + 1` open ones. -/
def angleOffset? (depth : Nat) (ts : TokenStream) : Option Nat :=
  match ts with
  | [] => none
  | t :: rest =>
    if t.kind = .lt then (angleOffset? (depth + 1) rest).map (· + 1)
    else if t.kind = .gt then
      match depth with
      | 0 => some 0
      | depth + 1 => (angleOffset? depth rest).map (· + 1)
    else if t.kind.isOpener then
      (bracketSpan? (t :: rest)).bind fun n => (angleOffset? depth (rest.drop n)).map (· + (n + 1))
    else if endsTypeArguments t.kind then none
    else (angleOffset? depth rest).map (· + 1)
termination_by ts.length
decreasing_by all_goals simp only [List.length_drop, List.length_cons]; omega

/-- For a stream that begins with an angle bracket, the offset of its closer. -/
def angleSpan? : TokenStream → Option Nat
  | [] => none
  | t :: rest => if t.kind = .lt then (angleOffset? 0 rest).map (· + 1) else none

/-- The index of the closer of the bracket at `i`. -/
def matching? (ts : TokenStream) (i : Nat) : Option Nat :=
  (bracketSpan? (ts.drop i)).map (i + ·)

/-- The index of the closer of the angle bracket at `i`. -/
def matchingAngle? (ts : TokenStream) (i : Nat) : Option Nat :=
  (angleSpan? (ts.drop i)).map (i + ·)

/-- The index just past the bracket pair at `i`, or `bound` where it is not closed. -/
def pastBracket (ts : TokenStream) (i bound : Nat) : Nat :=
  (ts.matching? i).elim bound (· + 1)

/-- A closer lies behind its opener. -/
theorem lt_of_matching? {ts : TokenStream} {i j : Nat} (h : ts.matching? i = some j) : i < j := by
  simp only [matching?, Option.map_eq_some_iff] at h
  obtain ⟨n, hn, rfl⟩ := h
  suffices 0 < n by omega
  unfold bracketSpan? at hn
  split at hn
  · simp at hn
  · simp only [Option.bind_eq_some_iff, Option.map_eq_some_iff] at hn
    obtain ⟨_, _, _, _, rfl⟩ := hn
    omega

theorem lt_of_matchingAngle? {ts : TokenStream} {i j : Nat} (h : ts.matchingAngle? i = some j) :
    i < j := by
  simp only [matchingAngle?, Option.map_eq_some_iff] at h
  obtain ⟨n, hn, rfl⟩ := h
  suffices 0 < n by omega
  unfold angleSpan? at hn
  split at hn
  · simp at hn
  · split at hn
    · simp only [Option.map_eq_some_iff] at hn
      obtain ⟨_, _, rfl⟩ := hn
      omega
    · simp at hn

end TypeScriptEngine.TokenStream
