import TypeScriptEngine.Proofs.Token.Word

/-! # Scanning words

The tokens of a text that is made of words.  Words that are printed with single spaces between them
are scanned as their tokens, and each of these stands where its word was printed (`tokens_print`).  A
text with any white space between words is scanned as these words too (`Spread.exists_tokens`), and
that is what is left of a printed text when some of its words are taken out.
-/

namespace TypeScriptEngine

open TypeScriptEngine.Text

/-! ## The tokens of words -/

/-- Where a token stands, and whether a line break comes before it. -/
structure TokenPlace where
  span : Span
  lineBefore : Bool

/-- The token of a word. -/
def Word.token (w : Word) (place : TokenPlace) : Token :=
  ⟨w.kind, place.span, w.value, String.ofList w.text, place.lineBefore⟩

/-- The token for the end of a text. -/
def endToken (place : TokenPlace) : Token := ⟨.eof, place.span, "", "", place.lineBefore⟩

/-- The tokens of words, the first of which is token `k` of a text. -/
def stream (place : Nat → TokenPlace) (k : Nat) : List Word → TokenStream
  | [] => []
  | w :: ws => w.token (place k) :: stream place (k + 1) ws

/-- No token but the first one comes after a line break. -/
def Flat (place : Nat → TokenPlace) : Prop := ∀ k, 0 < k → (place k).lineBefore = false

section

variable {place place' : Nat → TokenPlace} {k : Nat} {w : Word} {ws ws' : List Word}

@[simp] theorem Word.token_kind (w : Word) (p : TokenPlace) : (w.token p).kind = w.kind := rfl

@[simp] theorem Word.token_value (w : Word) (p : TokenPlace) : (w.token p).value = w.value := rfl

@[simp] theorem stream_nil : stream place k [] = [] := rfl

@[simp] theorem stream_cons :
    stream place k (w :: ws) = w.token (place k) :: stream place (k + 1) ws := rfl

@[simp] theorem length_stream : (stream place k ws).length = ws.length := by
  induction ws generalizing k with
  | nil => rfl
  | cons w ws ih => exact congrArg (· + 1) ih

@[simp] theorem stream_append :
    stream place k (ws ++ ws') = stream place k ws ++ stream place (k + ws.length) ws' := by
  induction ws generalizing k with
  | nil => rfl
  | cons w ws ih =>
    rw [List.cons_append, stream_cons, stream_cons, ih, List.length_cons, List.cons_append,
      Nat.add_right_comm, Nat.add_assoc]

@[simp] theorem drop_stream_append (rest : TokenStream) :
    (stream place k ws ++ rest).drop ws.length = rest := by
  rw [List.drop_append_of_le_length (by simp), List.drop_of_length_le (by simp), List.nil_append]

/-- What is behind a bracket that was opened before the words. -/
theorem drop_stream_append_cons (t : Token) (rest : TokenStream) :
    (stream place k ws ++ t :: rest).drop (ws.length + 1) = rest := by
  rw [← List.drop_drop, drop_stream_append, List.drop_one, List.tail_cons]

theorem stream_congr (h : ∀ j, k ≤ j → place j = place' j) :
    stream place k ws = stream place' k ws := by
  induction ws generalizing k with
  | nil => rfl
  | cons w ws ih =>
    rw [stream_cons, stream_cons, h k (Nat.le_refl k), ih fun j hj => h j (Nat.le_of_succ_le hj)]

/-- The places of tokens, of which that of token `k` is known. -/
def placeFrom (k : Nat) (here : TokenPlace) (place : Nat → TokenPlace) (j : Nat) : TokenPlace :=
  if j = k then here else place j

@[simp] theorem placeFrom_self (k : Nat) (here : TokenPlace) (place : Nat → TokenPlace) :
    placeFrom k here place k = here := if_pos rfl

theorem placeFrom_of_lt {j : Nat} (here : TokenPlace) (place : Nat → TokenPlace) (h : k < j) :
    placeFrom k here place j = place j := if_neg (Nat.ne_of_gt h)

theorem stream_placeFrom (here : TokenPlace) :
    stream (placeFrom k here place) k (w :: ws) = w.token here :: stream place (k + 1) ws := by
  rw [stream_cons, placeFrom_self, stream_congr fun j hj => placeFrom_of_lt here place hj]

/-- What a token is, apart from where it stands. -/
def Token.content (t : Token) : TokenKind × String := (t.kind, t.value)

theorem map_content_stream :
    (stream place k ws).map Token.content = ws.map fun w => (w.kind, w.value) := by
  induction ws generalizing k with
  | nil => rfl
  | cons w ws ih => exact congrArg (_ :: ·) ih

end

/-! ## Words in a stream -/

/-- The words stand in a stream from token `k` on. -/
def Reads (place : Nat → TokenPlace) (ts : TokenStream) (k : Nat) (ws : List Word) : Prop :=
  ∃ rest, ts.drop k = stream place k ws ++ rest

namespace Reads

variable {place : Nat → TokenPlace} {ts : TokenStream} {k : Nat} {w : Word} {ws ws' : List Word}

theorem of_append (rest : TokenStream) : Reads place (stream place 0 ws ++ rest) 0 ws := ⟨rest, rfl⟩

theorem left (h : Reads place ts k (ws ++ ws')) : Reads place ts k ws := by
  obtain ⟨rest, hrest⟩ := h
  rw [stream_append, List.append_assoc] at hrest
  exact ⟨_, hrest⟩

theorem right (h : Reads place ts k (ws ++ ws')) : Reads place ts (k + ws.length) ws' := by
  obtain ⟨rest, hrest⟩ := h
  rw [stream_append, List.append_assoc] at hrest
  exact ⟨rest, by rw [← List.drop_drop, hrest, drop_stream_append]⟩

theorem tail (h : Reads place ts k (w :: ws)) : Reads place ts (k + 1) ws :=
  @right place ts k [w] ws h

theorem getElem? (h : Reads place ts k (w :: ws)) : ts[k]? = some (w.token (place k)) := by
  obtain ⟨rest, hrest⟩ := h
  rw [← Nat.add_zero k, ← List.getElem?_drop, hrest]
  rfl

theorem kind (h : Reads place ts k (w :: ws)) : ts.kind k = w.kind := by
  rw [TokenStream.kind, h.getElem?]
  rfl

/-- Each token of the words is the token of one of them. -/
theorem exists_mem_getElem? (h : Reads place ts k ws) {j : Nat} (hk : k ≤ j)
    (hj : j < k + ws.length) : ∃ w ∈ ws, ts[j]? = some (w.token (place j)) := by
  induction ws generalizing k with
  | nil => exact absurd hj (Nat.not_lt.mpr hk)
  | cons w ws ih =>
    rcases Nat.eq_or_lt_of_le hk with rfl | hlt
    · exact ⟨w, List.mem_cons_self .., h.getElem?⟩
    · rw [List.length_cons, Nat.add_comm ws.length, ← Nat.add_assoc] at hj
      obtain ⟨w', hmem, hget⟩ := ih h.tail hlt hj
      exact ⟨w', List.mem_cons_of_mem _ hmem, hget⟩

theorem exists_mem (h : Reads place ts k ws) {j : Nat} (hk : k ≤ j) (hj : j < k + ws.length) :
    ∃ w ∈ ws, ts.kind j = w.kind := by
  obtain ⟨w, hw, hget⟩ := h.exists_mem_getElem? hk hj
  refine ⟨w, hw, ?_⟩
  rw [TokenStream.kind, hget]
  rfl

/-- Where a token of the words starts and stops. -/
theorem span (h : Reads place ts k ws) {j : Nat} (hk : k ≤ j) (hj : j < k + ws.length) :
    ts.startOf j = (place j).span.start ∧ ts.stopOf j = (place j).span.stop := by
  obtain ⟨w, _, hget⟩ := h.exists_mem_getElem? hk hj
  rw [TokenStream.startOf, TokenStream.stopOf, hget]
  exact ⟨rfl, rfl⟩

theorem value (h : Reads place ts k (w :: ws)) : ts.value k = w.value := by
  rw [TokenStream.value, h.getElem?]
  rfl

theorem source (h : Reads place ts k (w :: ws)) : ts.source k = String.ofList w.text := by
  rw [TokenStream.source, h.getElem?]
  rfl

end Reads

section

variable {place : Nat → TokenPlace} {last : TokenPlace} {ws : List Word} {i : Nat}

/-- Behind the words there is nothing. -/
theorem kind_of_length_le (hi : ws.length ≤ i) :
    TokenStream.kind (stream place 0 ws ++ [endToken last]) i = .eof := by
  rw [TokenStream.kind, List.getElem?_append_right (length_stream.symm ▸ hi)]
  cases i - (stream place 0 ws).length <;> rfl

theorem forall_kind_stream {P : TokenKind → Prop} (heof : P .eof) (h : ∀ w ∈ ws, P w.kind) (i : Nat) :
    P (TokenStream.kind (stream place 0 ws ++ [endToken last]) i) := by
  rcases Nat.lt_or_ge i ws.length with hi | hi
  · have hreads : Reads place (stream place 0 ws ++ [endToken last]) 0 ws := .of_append _
    obtain ⟨w, hw, hkind⟩ := hreads.exists_mem (Nat.zero_le i) ((Nat.zero_add _).symm ▸ hi)
    exact hkind ▸ h w hw
  · exact kind_of_length_le hi ▸ heof

end

/-! ## Gaps and words -/

/-- White space, if anything. -/
def Blank (gap : List Char) : Prop := ∀ c ∈ gap, isBlank c = true

theorem blank_nil : Blank [] := fun _ h => by contradiction

theorem blank_append {gap gap' : List Char} (h : Blank gap) (h' : Blank gap') :
    Blank (gap ++ gap') :=
  fun c hc => (List.mem_append.mp hc).elim (h c) (h' c)

/-- Nothing, or a text that does not begin with white space. -/
def Inked (rest : List Char) : Prop := ∀ c ∈ rest.head?, isBlank c = false

theorem inked_nil : Inked [] := fun _ h => by contradiction

theorem Word.inked_append (w : Word) (rest : List Char) : Inked (w.text ++ rest) := by
  obtain ⟨c, cs, htext, hc⟩ := w.spells.exists_cons
  rw [htext]
  exact fun d hd => Option.mem_some.mp hd ▸ hc

/-- White space is one piece. -/
theorem pieces_gap {c : Char} {gap rest : List Char} (hgap : Blank (c :: gap))
    (hrest : Inked rest) (st : ScanState) :
    pieces st (c :: gap ++ rest) = ⟨.blank, c :: gap⟩ :: pieces st rest := by
  have hc : isBlank c = true := hgap c (List.mem_cons_self ..)
  have hlength : Extent.run isBlank (gap ++ rest) = gap.length :=
    congrArg List.length (takeWhile_append_of_stop (fun d hd => hgap d (List.mem_cons_of_mem _ hd)) hrest)
  rw [List.cons_append, pieces_cons, Lexeme.next_of_isBlank hc]
  simp only [hlength, List.take_left, List.drop_left]
  rfl

namespace Scan

variable {pos : Nat} {lineBefore : Bool} {st : ScanState}

/-- A gap moves the tokens behind it. -/
theorem tokens_gap {gap rest : List Char} (hgap : Blank gap) (hrest : Inked rest) :
    (layOut pos lineBefore (pieces st (gap ++ rest))).tokens =
      (layOut (pos + byteLength gap) (lineBefore || gap.contains '\n') (pieces st rest)).tokens := by
  cases gap with
  | nil => simp
  | cons c gap =>
    rw [pieces_gap hgap hrest, layOut]

/-- A word is a token. -/
theorem tokens_word {w : Word} {rest : List Char} (hrest : Apart rest)
    (hst : .substitution ∉ st.openings) :
    (layOut pos lineBefore (pieces st (w.text ++ rest))).tokens =
      w.token ⟨⟨pos, pos + byteLength w.text⟩, lineBefore⟩ ::
        (layOut (pos + byteLength w.text) false (pieces (st.after w.piece) rest)).tokens := by
  rw [w.spells.scans st hst rest hrest, layOut]
  rfl

end Scan

/-- Words leave no substitution open. -/
theorem Word.not_mem_openings (w : Word) {st : ScanState} (hst : .substitution ∉ st.openings) :
    .substitution ∉ (st.after w.piece).openings := by
  have hhead : w.kind ≠ .templateHead := w.spells.opensNothing
  intro h
  change .substitution ∈ ScanState.openingsAfter st.openings w.kind at h
  unfold ScanState.openingsAfter at h
  split at h
  · rcases List.mem_cons.mp h with h | h
    · contradiction
    · exact hst h
  · exact hhead ‹_›
  · exact hst (List.mem_of_mem_tail h)
  · exact hst (List.mem_of_mem_tail h)
  · exact hst h

/-! ## Printed words -/

/-- Words with single spaces between them. -/
def print (ws : List Word) : List Char := [' '].intercalate (ws.map Word.text)

/-- What is printed before word `k`. -/
def gap (k : Nat) : List Char := if k = 0 then [] else [' ']

/-- What is printed for words, the first of which is word `k`. -/
def printFrom (k : Nat) : List Word → List Char
  | [] => []
  | w :: ws => gap k ++ (w.text ++ printFrom (k + 1) ws)

theorem blank_gap (k : Nat) : Blank (gap k) := by
  unfold gap
  split
  · exact blank_nil
  · exact fun c hc => List.mem_singleton.mp hc ▸ rfl

theorem print_eq_printFrom (ws : List Word) : print ws = printFrom 0 ws := by
  have hspaced : ∀ (ws : List Word) (k : Nat), 0 < k →
      printFrom k ws = (ws.map fun w => ' ' :: w.text).flatten := by
    intro ws
    induction ws with
    | nil => exact fun _ _ => rfl
    | cons w ws ih =>
      intro k hk
      rw [printFrom, gap, if_neg (Nat.ne_of_gt hk), ih (k + 1) (Nat.succ_pos k)]
      rfl
  have hjoined : ∀ (ws : List Word) (w : Word),
      print (w :: ws) = w.text ++ (ws.map fun w => ' ' :: w.text).flatten := by
    intro ws
    induction ws with
    | nil => exact fun w => by simp [print]
    | cons w' ws ih =>
      intro w
      have hih := ih w'
      unfold print at hih ⊢
      rw [List.map_cons, List.map_cons, List.intercalate_cons_cons, ← List.map_cons, hih]
      simp
  cases ws with
  | nil => rfl
  | cons w ws =>
    rw [hjoined, printFrom, hspaced ws (0 + 1) (Nat.succ_pos 0)]
    rfl

theorem printFrom_append (k : Nat) (ws ws' : List Word) :
    printFrom k (ws ++ ws') = printFrom k ws ++ printFrom (k + ws.length) ws' := by
  induction ws generalizing k with
  | nil => rfl
  | cons w ws ih =>
    rw [List.cons_append, printFrom, printFrom, ih, List.length_cons, Nat.add_right_comm,
      Nat.add_assoc, List.append_assoc, List.append_assoc]

theorem apart_printFrom {k : Nat} (hk : 0 < k) (ws : List Word) : Apart (printFrom k ws) := by
  cases ws with
  | nil => exact apart_nil
  | cons w ws =>
    rw [printFrom, gap, if_neg (Nat.ne_of_gt hk)]
    exact apart_cons (by decide)

/-- Where word `k` of printed words stands. -/
def placeAt (ws : List Word) (k : Nat) : TokenPlace where
  span := ⟨byteLength (printFrom 0 (ws.take k) ++ gap k), byteLength (printFrom 0 (ws.take (k + 1)))⟩
  lineBefore := k == 0

theorem flat_placeAt (ws : List Word) : Flat (placeAt ws) := fun k hk => by
  simpa [placeAt] using Nat.ne_of_gt hk

/-- The place of the word behind the first ones. -/
theorem placeAt_length (before : List Word) (w : Word) (ws : List Word) :
    placeAt (before ++ w :: ws) before.length =
      ⟨⟨byteLength (printFrom 0 before) + byteLength (gap before.length),
        byteLength (printFrom 0 before) + byteLength (gap before.length) + byteLength w.text⟩,
        before.length == 0⟩ := by
  have htake : (before ++ w :: ws).take (before.length + 1) = before ++ [w] := by
    simp [List.take_append]
  rw [placeAt, htake, List.take_left, printFrom_append, Nat.zero_add]
  simp [printFrom, Nat.add_assoc]

/-- **Printed words are scanned as their tokens.** -/
theorem tokens_print (ws : List Word) : ∃ p, (Scan.ofText (String.ofList (print ws))).tokens =
    stream (placeAt ws) 0 ws ++ [endToken p] := by
  have hfrom : ∀ (ws before : List Word) (st : ScanState), .substitution ∉ st.openings →
      ∃ p, (Scan.layOut (byteLength (printFrom 0 before)) (before.length == 0)
        (pieces st (printFrom before.length ws))).tokens =
          stream (placeAt (before ++ ws)) before.length ws ++ [endToken p] := by
    intro ws
    induction ws with
    | nil =>
      intro before st _
      rw [printFrom, pieces, Scan.layOut]
      exact ⟨⟨⟨_, _⟩, _⟩, rfl⟩
    | cons w ws ih =>
      intro before st hst
      have happart := apart_printFrom (Nat.succ_pos before.length) ws
      obtain ⟨p, hp⟩ := ih (before ++ [w]) (st.after w.piece) (w.not_mem_openings hst)
      have hnoBreak : (gap before.length).contains '\n' = false := by
        unfold gap
        split <;> decide
      have hend : byteLength (printFrom 0 (before ++ [w])) = byteLength (printFrom 0 before) +
          byteLength (gap before.length) + byteLength w.text := by
        simp [printFrom_append, printFrom, Nat.add_assoc]
      rw [List.append_assoc, hend, List.length_append, List.length_singleton] at hp
      refine ⟨p, ?_⟩
      rw [printFrom, Scan.tokens_gap (blank_gap _) (w.inked_append _), Scan.tokens_word happart hst,
        stream_cons, placeAt_length, hnoBreak, Bool.or_false, List.cons_append]
      exact congrArg (_ :: ·) hp
  obtain ⟨p, hp⟩ := hfrom ws [] .initial (by decide)
  refine ⟨p, ?_⟩
  rw [Scan.ofText, String.toList_ofList, print_eq_printFrom]
  exact hp

/-! ## Spread words -/

/-- The text is made of words, with white space behind each. -/
inductive Spread : List Char → List Word → Prop where
  | nil {gap : List Char} (hgap : Blank gap) : Spread gap []
  | cons {gap rest : List Char} {w : Word} {ws : List Word} (hgap : Blank gap)
      (happart : Apart rest) (hrest : Spread rest ws) : Spread (gap ++ (w.text ++ rest)) (w :: ws)

namespace Spread

variable {text : List Char} {ws : List Word}

theorem prepend_gap (h : Spread text ws) {front : List Char} (hfront : Blank front) :
    Spread (front ++ text) ws := by
  cases h with
  | nil hgap => exact .nil (blank_append hfront hgap)
  | cons hgap happart hrest =>
    rw [← List.append_assoc]
    exact .cons (blank_append hfront hgap) happart hrest

theorem prepend_print (h : Spread text ws) {front : List Word} (happart : front ≠ [] → Apart text)
    (k : Nat) : Spread (printFrom k front ++ text) (front ++ ws) := by
  induction front generalizing k with
  | nil => exact h
  | cons w front ih =>
    have htext := happart (List.cons_ne_nil w front)
    rw [printFrom, List.append_assoc, List.append_assoc]
    refine .cons (blank_gap k) ?_ (ih (fun _ => htext) (k + 1))
    cases front with
    | nil => exact htext
    | cons w' front =>
      rw [printFrom, gap, if_neg (Nat.succ_ne_zero k)]
      exact apart_cons (by decide)

/-- **Spread words are scanned as their tokens.**  If the text is on one line then no token but the
first one can come after a line break. -/
theorem exists_tokens (h : Spread text ws) {st : ScanState} (hst : .substitution ∉ st.openings)
    (pos : Nat) (lineBefore : Bool) (k : Nat) : ∃ place p,
    (Scan.layOut pos lineBefore (pieces st text)).tokens = stream place k ws ++ [endToken p] ∧
      ('\n' ∉ text → ∀ j, k ≤ j → (place j).lineBefore = true → j = k ∧ lineBefore = true) := by
  induction h generalizing st pos lineBefore k with
  | @nil gap hgap =>
    rw [← List.append_nil gap, Scan.tokens_gap hgap inked_nil, pieces, Scan.layOut]
    exact ⟨fun _ => ⟨⟨0, 0⟩, false⟩, ⟨⟨_, _⟩, _⟩, rfl, fun _ _ _ h => by contradiction⟩
  | @cons gap rest w ws hgap happart _ ih =>
    obtain ⟨place, p, htokens, hflat⟩ := ih (w.not_mem_openings hst)
      (pos + byteLength gap + byteLength w.text) false (k + 1)
    let here : TokenPlace := ⟨⟨pos + byteLength gap, pos + byteLength gap + byteLength w.text⟩,
      lineBefore || gap.contains '\n'⟩
    refine ⟨placeFrom k here place, p, ?_, fun hline j hj hbreak => ?_⟩
    · rw [Scan.tokens_gap hgap (w.inked_append _), Scan.tokens_word happart hst, htokens,
        stream_placeFrom, List.cons_append]
    · rw [List.mem_append, List.mem_append, not_or, not_or] at hline
      by_cases hjk : j = k
      · have hgap : gap.contains '\n' = false := by simpa using hline.1
        simp only [hjk, placeFrom_self, here, hgap, Bool.or_false] at hbreak
        exact ⟨hjk, hbreak⟩
      · rw [placeFrom_of_lt here place (by omega)] at hbreak
        exact absurd (hflat hline.2.2 j (by omega) hbreak).2 Bool.false_ne_true

/-- The tokens of a text of spread words. -/
theorem tokens_ofText (h : Spread text ws) : ∃ place p,
    (Scan.ofText (String.ofList text)).tokens = stream place 0 ws ++ [endToken p] ∧
      ('\n' ∉ text → Flat place) := by
  obtain ⟨place, p, htokens, hflat⟩ := @exists_tokens _ _ h .initial (by decide) 0 true 0
  refine ⟨place, p, ?_, fun hline k hk => Bool.eq_false_iff.mpr fun hbreak => ?_⟩
  · rw [Scan.ofText, String.toList_ofList, htokens]
  · exact Nat.ne_of_gt hk (hflat hline k (Nat.zero_le k) hbreak).1

theorem content_ofText (h : Spread text ws) :
    (Scan.ofText (String.ofList text)).tokens.map Token.content =
      (ws.map fun w => (w.kind, w.value)) ++ [(.eof, "")] := by
  obtain ⟨place, p, htokens, _⟩ := h.tokens_ofText
  rw [htokens, List.map_append, map_content_stream]
  rfl

end Spread

theorem spread_print (ws : List Word) : Spread (print ws) ws := by
  have h := Spread.prepend_print (.nil blank_nil) (fun _ : ws ≠ [] => apart_nil) 0
  rwa [List.append_nil, List.append_nil, ← print_eq_printFrom] at h

end TypeScriptEngine
