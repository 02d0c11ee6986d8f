import TypeScriptEngine.Proofs.Checked.Navigation
import TypeScriptEngine.Proofs.Reference.Quotes

/-! # Reading off the references of a file

The attributes of a directive are searched in the text of its comment by byte positions, and the
specifiers of imports and exports by token indices.  Neither leaves its text or its tokens
(`references_eq`).
-/

namespace TypeScriptEngine.Checked

open TypeScriptEngine.Text TokenStream
open Reference (Quoted)

/-! ## The byte before a position -/

/-- The bytes of a text in UTF-8. -/
def utf8 (text : List Char) : List UInt8 := text.flatMap String.utf8EncodeChar

@[simp] theorem utf8_append (as bs : List Char) : utf8 (as ++ bs) = utf8 as ++ utf8 bs :=
  List.flatMap_append

@[simp] theorem length_utf8 (text : List Char) : (utf8 text).length = byteLength text := by
  induction text with
  | nil => rfl
  | cons c cs ih =>
    rw [utf8, List.flatMap_cons, List.length_append, String.length_utf8EncodeChar, byteLength_cons,
      ← ih, utf8]

/-- Whether a byte is white space. -/
def isBlankByte (b : UInt8) : Bool := b == 0x20 || b == 0x09 || b == 0x0A || b == 0x0C || b == 0x0D

/-- The last byte of a character is white space only if that is all of it. -/
theorem exists_lastByte (c : Char) :
    ∃ b, (String.utf8EncodeChar c).getLast? = some b ∧ isBlankByte b = isAsciiBlank c := by
  by_cases hascii : c.val.toNat ≤ 127
  · have hbyte : ∀ n : Fin 128, isBlankByte (UInt8.ofNat n) = isAsciiBlank (Char.ofNat n) := by
      decide
    refine ⟨UInt8.ofNat c.val.toNat, ?_, ?_⟩
    · simp only [String.utf8EncodeChar, if_pos hascii, List.getLast?_singleton]
    · rw [hbyte ⟨c.val.toNat, Nat.lt_succ_of_le hascii⟩]
      exact congrArg isAsciiBlank (Char.ofNat_toNat c)
  · -- what goes on a character of several bytes is no byte of ASCII
    have hbyte : ∀ n : Fin 64, isBlankByte (UInt8.ofNat (n + 128)) = false := by decide
    refine ⟨UInt8.ofNat (c.val.toNat % 64 + 128), ?_, ?_⟩
    · simp only [String.utf8EncodeChar, if_neg hascii]
      split
      · rfl
      · split <;> rfl
    · rw [hbyte ⟨c.val.toNat % 64, Nat.mod_lt _ (by decide)⟩]
      have hne : ∀ d : Char, d.val.toNat ≤ 127 → c ≠ d := fun d hd h => hascii (h ▸ hd)
      simp [isAsciiBlank, hne]

/-- Whether white space of one byte comes before a position. -/
def followsBlank (text : List Char) (pos : Nat) : Checked Bool := do
  match ← back pos 1 with
  | none => return false
  | some k => return isBlankByte (← entry (utf8 text)[k]?)

theorem followsBlank_eq (before rest : List Char) :
    followsBlank (before ++ rest) (byteLength before) = .ok (before.getLast?.any isAsciiBlank) := by
  unfold followsBlank
  rcases List.eq_nil_or_concat before with rfl | ⟨front, c, rfl⟩
  · rfl
  rw [List.concat_eq_append]
  obtain ⟨b, hlast, hblank⟩ := exists_lastByte c
  have hpos : 1 ≤ byteLength (front ++ [c]) := by
    rw [byteLength_append, byteLength_cons]
    exact (utf8Size_pos c).trans_le (by omega)
  have hbyte : (utf8 (front ++ [c] ++ rest))[byteLength (front ++ [c]) - 1]? = some b := by
    rw [utf8_append, List.getElem?_append_left (by rw [length_utf8]; omega), ← length_utf8,
      ← List.getLast?_eq_getElem?, utf8_append, List.getLast?_append]
    rw [show utf8 [c] = String.utf8EncodeChar c from List.append_nil _, hlast, Option.some_or]
  rw [back_eq_ok, if_pos hpos, ok_bind]
  simp only [hbyte, entry_some, ok_bind, pure_eq_ok, hblank, List.getLast?_append,
    List.getLast?_singleton, Option.some_or, Option.any_some]

/-! ## Attributes -/

/-- What precedes the first occurrence of a name. -/
def textBefore? (name : List Char) : List Char → Option (List Char)
  | [] => none
  | c :: cs => if name.isPrefixOf (c :: cs) then some [] else (textBefore? name cs).map (c :: ·)

/-- The value of an attribute, looked for from the end of its name on.  There is none to look for
where no equals sign and no quote follow. -/
def quotedFrom (text : List Char) (pos : Nat) : Checked (Option (Option Quoted)) := do
  let rest ← slice pos (byteLength text) text
  match Reference.attributeQuote? pos rest with
  | none => return none
  | some (_, quoted) =>
    let start := (← sub (byteLength text) (byteLength quoted)) + 1
    let rest ← slice start (byteLength text) text
    match quoted with
    | [] => return some none
    | quote :: _ =>
      if rest.contains quote then
        let value ← slice start (start + byteLength (rest.takeWhile (· != quote))) text
        return some (some ⟨start, value⟩)
      else return some none

/-- The value of the first attribute of a name, looked for from a position on. -/
def attributeFrom (text name : List Char) (pos : Nat) : Checked (Option Quoted) := do
  let rest ← slice pos (byteLength text) text
  match textBefore? name rest with
  | none => return none
  | some skipped =>
    let start := pos + byteLength skipped
    let next := start + byteLength name
    let found? ← if ← followsBlank text start then quotedFrom text next else pure none
    match found? with
    | some value? => return value?
    | none =>
      if pos < next ∧ next ≤ byteLength text then attributeFrom text name next
      else .error .standstill
termination_by byteLength text - pos

section
variable {name before rest cs : List Char} {previous : Option Char} {pos : Nat}

theorem attribute?_of_absent (h : textBefore? name cs = none) :
    Reference.attribute? name previous pos cs = none := by
  induction cs generalizing previous pos with
  | nil => rw [Reference.attribute?]
  | cons c cs ih =>
    rw [textBefore?] at h
    split at h
    · contradiction
    · rename_i hprefix
      rw [Reference.attribute?, if_neg hprefix]
      exact ih (Option.map_eq_none_iff.mp h)

/-- Nothing is looked at before the first occurrence of the name. -/
theorem attribute?_of_present {skipped : List Char} (h : textBefore? name cs = some skipped) :
    ∃ further, cs = skipped ++ (name ++ further) ∧
      Reference.attribute? name previous pos cs =
        Reference.attribute? name (skipped.getLast?.or previous) (pos + byteLength skipped)
          (name ++ further) := by
  induction cs generalizing previous pos skipped with
  | nil => contradiction
  | cons c cs ih =>
    rw [textBefore?] at h
    split at h
    · rename_i hprefix
      obtain rfl := Option.some.inj h
      obtain ⟨further, hfurther⟩ := List.isPrefixOf_iff_prefix.mp hprefix
      exact ⟨further, hfurther.symm, by rw [hfurther]; rfl⟩
    · rename_i hprefix
      obtain ⟨skipped, hskipped, rfl⟩ := Option.map_eq_some_iff.mp h
      obtain ⟨further, hcs, heq⟩ := ih hskipped
      refine ⟨further, by rw [hcs, List.cons_append], ?_⟩
      rw [Reference.attribute?, if_neg hprefix, heq, byteLength_cons, Nat.add_assoc,
        List.getLast?_cons]
      cases skipped.getLast? <;> rfl

theorem attribute?_step (hname : name ≠ []) (further : List Char) :
    Reference.attribute? name previous pos (name ++ further) =
      (if previous.any isAsciiBlank then
        Reference.attributeQuote? (pos + byteLength name) further else none).elim
        (Reference.attribute? name name.getLast? (pos + byteLength name) further)
        fun found => Reference.quoted? found.1 found.2 := by
  obtain ⟨n, ns, rfl⟩ := List.exists_cons_of_ne_nil hname
  have hprefix : (n :: ns).isPrefixOf (n :: (ns ++ further)) = true :=
    List.isPrefixOf_iff_prefix.mpr (List.prefix_append (n :: ns) further)
  have hdrop : (ns ++ further).drop ((n :: ns).length - 1) = further := List.drop_left' rfl
  have hpos : pos + byteLength (n :: (ns ++ further)) - byteLength further =
      pos + byteLength (n :: ns) := by
    rw [← List.cons_append, byteLength_append]
    omega
  rw [List.cons_append, Reference.attribute?, if_pos hprefix]
  simp only [hdrop, hpos]
  generalize (if previous.any isAsciiBlank then
    Reference.attributeQuote? (pos + byteLength (n :: ns)) further else none) = found?
  cases found? <;> rfl

/-- A value goes from its quote up to the next one. -/
theorem quotedFrom_eq (before rest : List Char) :
    quotedFrom (before ++ rest) (byteLength before) =
      .ok ((Reference.attributeQuote? (byteLength before) rest).map fun found =>
        Reference.quoted? found.1 found.2) := by
  rw [quotedFrom, slice_rest, ok_bind]
  cases hquote : Reference.attributeQuote? (byteLength before) rest with
  | none => rfl
  | some found =>
    obtain ⟨start, quoted⟩ := found
    obtain ⟨front, quote, value, rfl, hmark, rfl, rfl⟩ := Reference.exists_quote hquote
    have hsize : quote.utf8Size = 1 := utf8Size_of_isQuote hmark
    have htext : before ++ (front ++ quote :: value) = before ++ front ++ [quote] ++ value := by
      simp
    have hstart : sub (byteLength (before ++ front ++ [quote] ++ value))
        (byteLength (quote :: value)) = .ok (byteLength (before ++ front)) := by
      rw [List.append_assoc _ [quote], List.singleton_append, byteLength_append, sub_add]
    have hnext : byteLength (before ++ front) + 1 = byteLength (before ++ front ++ [quote]) := by
      rw [byteLength_append _ [quote], byteLength_cons, hsize, byteLength_nil]
    have hvalue : slice (byteLength (before ++ front ++ [quote]))
        (byteLength (before ++ front ++ [quote] ++ value.takeWhile (· != quote)))
        (before ++ front ++ [quote] ++ value) = .ok (value.takeWhile (· != quote)) :=
      slice_eq_ok_iff.mpr ⟨_, value.dropWhile (· != quote),
        by rw [List.append_assoc _ (value.takeWhile _), List.takeWhile_append_dropWhile], rfl, rfl⟩
    rw [htext]
    simp only [hstart, ok_bind, hnext, slice_rest, ← byteLength_append, hvalue, pure_eq_ok,
      Option.map_some, Reference.quoted?]
    split <;> rfl

/-- **The search for an attribute stays in the text and moves on with each turn.** -/
theorem attributeFrom_eq (hname : name ≠ []) (before rest : List Char) :
    attributeFrom (before ++ rest) name (byteLength before) =
      .ok (Reference.attribute? name before.getLast? (byteLength before) rest) := by
  induction hlength : rest.length using Nat.strong_induction_on generalizing before rest with
  | _ n ih =>
    subst hlength
    rw [attributeFrom, slice_rest, ok_bind]
    cases hfound : textBefore? name rest with
    | none => rw [attribute?_of_absent hfound]; rfl
    | some skipped =>
      obtain ⟨further, hrest, hattribute⟩ :=
        @attribute?_of_present _ _ before.getLast? (byteLength before) _ hfound
      have htext : before ++ rest = before ++ skipped ++ name ++ further := by
        rw [hrest]
        simp only [List.append_assoc]
      have hblank := followsBlank_eq (before ++ skipped) (name ++ further)
      rw [← List.append_assoc _ name, List.getLast?_append] at hblank
      have hquoted := quotedFrom_eq (before ++ skipped ++ name) further
      have hshorter : further.length < rest.length := by
        have := List.length_pos_iff.mpr hname
        simp only [hrest, List.length_append]
        omega
      have hnext := ih _ hshorter (before ++ skipped ++ name) further rfl
      have hlast : (before ++ skipped ++ name).getLast? = name.getLast? := by
        rw [List.getLast?_append, List.getLast?_eq_some_getLast hname, Option.some_or]
      have hmoves : byteLength before < byteLength (before ++ skipped ++ name) ∧
          byteLength (before ++ skipped ++ name) ≤
            byteLength (before ++ skipped ++ name ++ further) := by
        have := length_le_byteLength name
        have := List.length_pos_iff.mpr hname
        simp only [byteLength_append]
        omega
      rw [hattribute, attribute?_step hname, htext]
      simp only [← byteLength_append, hblank, ok_bind]
      -- either way the test for progress is met, by `hmoves`
      split
      · rw [hquoted, ok_bind]
        cases Reference.attributeQuote? (byteLength (before ++ skipped ++ name)) further with
        | none => simp only [Option.map_none, Option.elim_none, hnext, hlast]
        | some found => rfl
      · simp only [pure_eq_ok, ok_bind, Option.elim_none, hnext, hlast]

end

/-- The value of the first attribute of a name. -/
def attribute? (text : List Char) (name : String) : Checked (Option Quoted) :=
  attributeFrom text name.toList 0

theorem attribute?_eq {name : String} (hname : name.toList ≠ []) (text : List Char) :
    attribute? text name = .ok (Reference.attribute? name.toList none 0 text) :=
  attributeFrom_eq hname [] text

/-- What one leading comment says. -/
def ofComment (c : Comment) : Checked FileReferences := do
  match Reference.directiveBody? c with
  | none => return ⟨[], false⟩
  | some body =>
    let base := c.span.start + 3
    let reference? ← match ← attribute? body "path" with
      | some path => pure (some (Reference.ofQuoted .directive base path))
      | none => pure ((← attribute? body "types").map (Reference.ofQuoted .module base))
    let noLib ← attribute? body "no-default-lib"
    return ⟨reference?.toList, noLib.any fun q => q.value == "true".toList⟩

theorem ofComment_eq (c : Comment) : ofComment c = .ok (Reference.ofComment c) := by
  have hattribute : ∀ name ∈ ["path", "types", "no-default-lib"], ∀ text,
      attribute? text name = .ok (Reference.attribute? name.toList none 0 text) := by
    have hnames : ∀ name ∈ ["path", "types", "no-default-lib"], name.toList ≠ [] := by decide
    exact fun name hname => attribute?_eq (hnames name hname)
  unfold ofComment Reference.ofComment
  cases Reference.directiveBody? c with
  | none => rfl
  | some body =>
    simp only [hattribute "path" (by simp), hattribute "types" (by simp),
      hattribute "no-default-lib" (by simp), ok_bind, pure_eq_ok]
    cases Reference.attribute? "path".toList none 0 body <;> rfl

/-! ## Imports and exports -/

variable {ts rest : TokenStream} {t : Token} {depth i : Nat}

/-- A span without its first and last byte. -/
def unquoted (s : Span) : Checked Span :=
  if 2 ≤ s.length then return ⟨s.start + 1, ← sub s.stop 1⟩ else return s

theorem unquoted_eq (s : Span) : unquoted s = .ok s.unquoted := by
  unfold unquoted Span.unquoted
  split
  · rename_i hlength
    have hstop : 1 ≤ s.stop := by
      unfold Span.length at hlength
      omega
    rw [sub_eq_ok hstop]
    rfl
  · rfl

/-- The reference that a string literal makes. -/
def ofLiteral (t : Token) : Checked Reference := return ⟨.module, t.value, ← unquoted t.span⟩

theorem ofLiteral_eq (t : Token) : ofLiteral t = .ok (Reference.ofLiteral t) := by
  rw [ofLiteral, unquoted_eq]
  rfl

/-- The stream after the brace that closes those from `i` on, where `depth` are open. -/
def afterBraces? (ts : TokenStream) (depth i : Nat) : Checked (Option TokenStream) :=
  if i < ts.length then
    match ts.kind i with
    | .lbrace => afterBraces? ts (depth + 1) (i + 1)
    | .rbrace => do
      let depth ← sub depth 1
      if depth = 0 then return some (ts.drop (i + 1)) else afterBraces? ts depth (i + 1)
    | .eof => return none
    | _ => afterBraces? ts depth (i + 1)
  else return none
termination_by ts.length - i

theorem afterBraces?_eq (h : ts.drop i = rest) :
    afterBraces? ts (depth + 1) i = .ok (Reference.afterBraces? (depth + 1) rest) := by
  induction rest generalizing depth i with
  | nil => rw [afterBraces?, if_neg (length_le_of_drop_eq_nil h)]; rfl
  | cons t rest ih =>
    obtain ⟨hlt, hkind, hrest⟩ := of_drop_eq_cons h
    rw [afterBraces?, if_pos hlt, Reference.afterBraces?, hkind]
    cases t.kind with
    | lbrace => exact ih hrest
    | rbrace =>
      simp only [sub_add, ok_bind, hrest]
      cases depth with
      | zero => rfl
      | succ depth =>
        rw [if_neg (Nat.succ_ne_zero depth), ih hrest, if_neg (by omega), Nat.add_sub_cancel]
    | eof => rfl
    | _ => exact ih hrest

/-- The source of an export list or of a star at `i`. -/
def exportListSource? (ts : TokenStream) (i : Nat) : Checked (Option Token) := do
  match ts.kind i with
  | .star =>
    return Reference.fromClause? (ts.drop (if ts.kind (i + 1) = .kwAs then i + 3 else i + 1))
  | .lbrace => return (← afterBraces? ts 0 i).bind Reference.fromClause?
  | _ => return none

theorem exportListSource?_eq (ts : TokenStream) (i : Nat) :
    exportListSource? ts i = .ok (Reference.exportListSource? (ts.drop i)) := by
  unfold exportListSource?
  cases hdrop : ts.drop i with
  | nil =>
    rw [kind_eq_headKind_drop, hdrop]
    rfl
  | cons t rest =>
    obtain ⟨hlt, hkind, hrest⟩ := of_drop_eq_cons hdrop
    rw [hkind, Reference.exportListSource?]
    cases hk : t.kind with
    | star =>
      simp only [kind_eq_headKind_drop ts (i + 1), hrest]
      split
      · rw [show i + 3 = i + 1 + 2 from rfl, ← List.drop_drop, hrest]
        rfl
      · rw [hrest]
        rfl
    | lbrace =>
      simp only
      rw [afterBraces?, if_pos hlt, hkind, hk]
      simp only
      rw [afterBraces?_eq hrest]
      rfl
    | _ => rfl

/-- The source of an export, from token `i` on, which is behind the word `export`. -/
def exportSource? (ts : TokenStream) (i : Nat) : Checked (Option Token) :=
  exportListSource? ts (if ts.kind i = .kwType ∧ ts.kind (i + 1) = .lbrace then i + 1 else i)

theorem exportSource?_eq (ts : TokenStream) (i : Nat) :
    exportSource? ts i = .ok (Reference.exportSource? (ts.drop i)) := by
  rw [exportSource?, exportListSource?_eq]
  cases hdrop : ts.drop i with
  | nil =>
    rw [kind_eq_headKind_drop, hdrop, if_neg (by simp [headKind]), hdrop]
    rfl
  | cons t rest =>
    obtain ⟨_, hkind, hrest⟩ := of_drop_eq_cons hdrop
    rw [Reference.exportSource?, hkind, kind_eq_headKind_drop ts (i + 1), hrest]
    split
    · rw [hrest]
    · rw [hdrop]

/-- The source that an `import` names, from token `i` on, which is behind that word. -/
def importedBy? (ts : TokenStream) (i : Nat) : Checked (Option Token) := do
  match ts.kind i with
  | .lparen =>
    if ts.kind (i + 1) = .stringLiteral then return some (← entry ts[i + 1]?) else return none
  | .stringLiteral => return some (← entry ts[i]?)
  | .dot => return none
  | _ => return Reference.importSource? (ts.drop i)

/-- A token whose kind is known is there. -/
theorem entry_of_kind {k : TokenKind} (hk : k ≠ .eof) (h : ts.kind i = k) :
    ∃ t, entry ts[i]? = .ok t ∧ ts.drop i = t :: ts.drop (i + 1) ∧ t.kind = k := by
  unfold TokenStream.kind at h
  cases ht : ts[i]? with
  | none =>
    rw [ht] at h
    exact absurd h.symm hk
  | some t =>
    rw [ht] at h
    obtain ⟨hlt, rfl⟩ := List.getElem?_eq_some_iff.mp ht
    exact ⟨_, rfl, List.drop_eq_getElem_cons hlt, h⟩

theorem headString?_drop (h : ts.kind i ≠ .stringLiteral) :
    Reference.headString? (ts.drop i) = none := by
  cases hdrop : ts.drop i with
  | nil => rfl
  | cons t rest =>
    rw [(of_drop_eq_cons hdrop).2.1] at h
    exact if_neg h

theorem importedBy?_eq (ts : TokenStream) (i : Nat) :
    importedBy? ts i = .ok (Reference.importedBy? (ts.drop i)) := by
  unfold importedBy? Reference.importedBy?
  rw [← kind_eq_headKind_drop]
  cases hliteral : ts.kind i with
  | lparen =>
    simp only [List.drop_drop]
    split
    · rename_i hliteral
      obtain ⟨t, hentry, hdrop, hkind⟩ := entry_of_kind (by decide) hliteral
      rw [hentry, hdrop, Reference.headString?, if_pos hkind]
      rfl
    · rename_i hliteral
      rw [headString?_drop hliteral]
      rfl
  | stringLiteral =>
    obtain ⟨t, hentry, hdrop, hkind⟩ := entry_of_kind (by decide) hliteral
    simp only [hentry, hdrop, Reference.headString?, if_pos hkind]
    rfl
  | _ => rfl

/-- The references of all statements and calls from token `i` on. -/
def ofTokens (ts : TokenStream) (i : Nat) : Checked (List Reference) :=
  if i < ts.length then do
    let source? ← if ← followsDot ts i then pure none
      else match ts.kind i with
        | .kwImport => importedBy? ts (i + 1)
        | .kwExport => exportSource? ts (i + 1)
        | _ => pure none
    let here ← match source? with
      | some literal => pure [← ofLiteral literal]
      | none => pure []
    return here ++ (← ofTokens ts (i + 1))
  else return []
termination_by ts.length - i

theorem ofTokens_eq {previous : TokenKind} (h : ts.drop i = rest)
    (hprevious : previous.isDot = ts.followsDot i) :
    ofTokens ts i = .ok (Reference.ofTokens previous rest) := by
  induction rest generalizing i previous with
  | nil => rw [ofTokens, if_neg (length_le_of_drop_eq_nil h)]; rfl
  | cons t rest ih =>
    obtain ⟨hlt, hkind, hrest⟩ := of_drop_eq_cons h
    have hbehind := ih hrest (congrArg _ hkind.symm)
    rw [ofTokens, if_pos hlt, Reference.ofTokens, followsDot_eq, ok_bind, hkind, hprevious]
    simp only [importedBy?_eq, exportSource?_eq, hrest, hbehind, ofLiteral_eq, ok_bind]
    split
    · rfl
    · cases t.kind with
      | kwImport => cases Reference.importedBy? rest <;> rfl
      | kwExport => cases Reference.exportSource? rest <;> rfl
      | _ => rfl

/-- What a text says about other files. -/
def references (text : String) : Checked FileReferences := do
  let scan ← scan text
  let directives ← (Reference.leadingComments scan).mapM ofComment
  return {
    references := directives.flatMap FileReferences.references ++ (← ofTokens scan.tokens 0)
    noDefaultLib := directives.any FileReferences.noDefaultLib }

/-- **Reading off the references of a text does not fail.** -/
theorem references_eq (text : String) : references text = .ok (FileReferences.ofText text) := by
  have hcomments : ∀ comments : List Comment,
      comments.mapM ofComment = .ok (comments.map Reference.ofComment) := fun comments => by
    rw [funext ofComment_eq]
    exact List.mapM_pure
  have htokens := @ofTokens_eq (Scan.ofText text).tokens _ 0 .eof rfl rfl
  rw [references, scan_eq, ok_bind, hcomments, ok_bind, htokens]
  rfl

end TypeScriptEngine.Checked
