import TypeScriptEngine.Glob.Match

/-! # Patterns of directories

A text without the signs of the pattern language is read as the literal characters that it has
(`ofText_plain`), and matches the path with these characters only (`matchesText_literals`).  Behind a
slash, two stars, another slash and a star stand for everything that lies deeper
(`matchesText_below`): what a pattern matches is found byte by byte, and the bytes of characters are
told apart from their beginning on (`exists_append_of_bytesOf`).
-/

namespace TypeScriptEngine.Glob

/-- A character that stands for itself in a pattern. -/
def IsPlain (c : Char) : Prop := c ∉ ['*', '?', '[', ']', '{', '}', '\\']

instance (c : Char) : Decidable (IsPlain c) :=
  inferInstanceAs (Decidable (c ∉ ['*', '?', '[', ']', '{', '}', '\\']))

variable {cs : List Char} {c : Char}

/-! ## Reading -/

theorem read_nil (tokens : List GlobToken) (previous : Option Char) :
    read ⟨tokens, []⟩ previous [] = .ok tokens.reverse := by
  rw [read]
  rfl

theorem read_plain (h : IsPlain c) (tokens : List GlobToken) (previous : Option Char)
    (rest : List Char) : read ⟨tokens, []⟩ previous (c :: rest) =
      read ⟨.literal c :: tokens, []⟩ (some c) rest := by
  by_cases hcomma : c = ','
  · subst hcomma
    rw [read]
    rfl
  · rw [read]
    · rfl
    all_goals rintro rfl
    all_goals first | exact hcomma rfl | exact h (by decide)

/-- Plain characters are read one by one. -/
theorem read_append_plain (h : ∀ c ∈ cs, IsPlain c) (tokens : List GlobToken)
    (previous : Option Char) (rest : List Char) : ∃ previous',
      read ⟨tokens, []⟩ previous (cs ++ rest) =
        read ⟨(cs.map GlobToken.literal).reverse ++ tokens, []⟩ previous' rest := by
  induction cs generalizing tokens previous with
  | nil => exact ⟨previous, rfl⟩
  | cons c cs ih =>
    obtain ⟨previous', hread⟩ := ih (fun d hd => h d (List.mem_cons_of_mem _ hd))
      (.literal c :: tokens) (some c)
    refine ⟨previous', ?_⟩
    rw [List.cons_append, read_plain (h c (List.mem_cons_self ..)), hread]
    simp

/-- **Plain characters stand for themselves.** -/
theorem ofText_plain (h : ∀ c ∈ cs, IsPlain c) :
    ofText (String.ofList cs) = .ok (cs.map .literal) := by
  obtain ⟨previous, hread⟩ := read_append_plain h [] none []
  rw [List.append_nil, read_nil] at hread
  rw [ofText, String.toList_ofList, hread]
  simp

/-- What is read for the end of a pattern that means everything below a directory. -/
theorem read_below (tokens : List GlobToken) (previous : Option Char) :
    read ⟨tokens, []⟩ previous "/**/*".toList =
      .ok (tokens.reverse ++ [.innerSegments, .star]) := by
  have htext : "/**/*".toList = ['/', '*', '*', '/', '*'] := rfl
  have hslash : IsPlain '/' := by decide
  -- the stars take the place of the slash before them
  have hstars : Draft.twoStars ⟨.literal '/' :: tokens, []⟩ (some '/') ['/', '*'] =
      (⟨.innerSegments :: tokens, []⟩, 1) := rfl
  have hlast : read ⟨.innerSegments :: tokens, []⟩ (some '/') ['*'] =
      .ok (tokens.reverse ++ [.innerSegments, .star]) := by
    rw [read, if_neg (by simp)]
    exact (read_nil _ _).trans (by simp)
  rw [htext, read_plain hslash, read]
  simp only [List.head?_cons, if_true, List.drop_succ_cons, List.drop_zero, hstars]
  exact hlast

/-- **Two stars behind a directory stand for what lies below it.** -/
theorem ofText_below (h : ∀ c ∈ cs, IsPlain c) :
    ofText (String.ofList (cs ++ "/**/*".toList)) =
      .ok (cs.map .literal ++ [.innerSegments, .star]) := by
  obtain ⟨previous, hread⟩ := read_append_plain h [] none "/**/*".toList
  rw [read_below] at hread
  rw [ofText, String.toList_ofList, hread]
  simp

/-! ## Bytes -/

theorem toList_eq (bytes : ByteArray) : bytes.toList = bytes.data.toList := by
  have hloop : ∀ (i : Nat) (read : List UInt8),
      ByteArray.toList.loop bytes i read = read.reverse ++ bytes.data.toList.drop i := by
    intro i read
    induction i, read using ByteArray.toList.loop.induct bytes with
    | case1 i read hlt ih =>
      have hlength : i < bytes.data.toList.length := hlt
      have hget : bytes.get! i = bytes.data.toList[i] := by simp [ByteArray.get!, hlt]
      rw [ByteArray.toList.loop, if_pos hlt, ih, List.drop_eq_getElem_cons hlength,
        List.reverse_cons, List.append_assoc, hget]
      rfl
    | case2 i read hlt =>
      have hlength : bytes.data.toList.length ≤ i := Nat.le_of_not_lt hlt
      rw [ByteArray.toList.loop, if_neg hlt, List.drop_eq_nil_of_le hlength, List.append_nil]
  rw [ByteArray.toList, hloop]
  rfl

theorem bytesOf_append (s t : String) : bytesOf (s ++ t) = bytesOf s ++ bytesOf t := by
  simp [bytesOf, toList_eq]

theorem bytesOf_nil : bytesOf (String.ofList []) = [] := by
  simp [bytesOf, toList_eq]

theorem bytesOf_cons (c : Char) (cs : List Char) :
    bytesOf (String.ofList (c :: cs)) = bytesOfChar c ++ bytesOf (String.ofList cs) := by
  rw [← List.singleton_append, String.ofList_append, bytesOf_append]
  rfl

theorem bytesOfChar_eq (c : Char) : bytesOfChar c = String.utf8EncodeChar c := by
  simp [bytesOfChar, bytesOf, toList_eq, List.utf8Encode_singleton]

theorem bytesOfChar_ne_nil (c : Char) : bytesOfChar c ≠ [] := by
  rw [bytesOfChar_eq]
  exact List.ne_nil_of_length_pos (by rw [String.length_utf8EncodeChar]; exact c.utf8Size_pos)

theorem bytesOfChar_slash : bytesOfChar '/' = [slash] := by
  rw [bytesOfChar_eq]
  decide

variable {bs left rest : List UInt8} {tokens : List GlobToken}

/-- The first character of a text is told by its bytes. -/
theorem bytesOfChar_inj {d : Char} (h : bytesOfChar c ++ bs = bytesOfChar d ++ rest) : c = d := by
  have hread := congrArg (fun bytes => ByteArray.utf8DecodeChar? (List.toByteArray bytes) 0) h
  simp only [bytesOfChar_eq, List.toByteArray_append,
    ByteArray.utf8DecodeChar?_utf8EncodeChar_append] at hread
  exact Option.some.inj hread

/-- **Bytes at the head of a text that are characters are characters of the text.** -/
theorem exists_append_of_bytesOf {ds : List Char}
    (h : bytesOf (String.ofList ds) = bytesOf (String.ofList cs) ++ bs) :
    ∃ more, ds = cs ++ more ∧ bs = bytesOf (String.ofList more) := by
  induction cs generalizing ds with
  | nil =>
    rw [bytesOf_nil, List.nil_append] at h
    exact ⟨ds, rfl, h.symm⟩
  | cons c cs ih =>
    cases ds with
    | nil =>
      rw [bytesOf_nil, bytesOf_cons] at h
      simp [bytesOfChar_ne_nil] at h
    | cons d ds =>
      rw [bytesOf_cons, bytesOf_cons, List.append_assoc] at h
      obtain rfl := bytesOfChar_inj h
      obtain ⟨more, rfl, hbs⟩ := ih (List.append_cancel_left h)
      exact ⟨more, rfl, hbs⟩

/-! ## What can be left -/

theorem mem_afterTokens_cons {t : GlobToken} : rest ∈ afterTokens false (t :: tokens) bs ↔
    ∃ left ∈ afterToken false t bs, rest ∈ afterTokens false tokens left := by
  rw [afterTokens, List.mem_eraseDups, List.mem_flatMap]
  simp only [List.mem_eraseDups]

theorem mem_afterRun : left ∈ afterRun (fun _ => true) bs ↔ left <:+ bs := by
  induction bs with
  | nil => simp [afterRun]
  | cons b bs ih => rw [afterRun, if_pos rfl, List.mem_cons, ih, List.suffix_cons_iff]

theorem mem_afterSlash : left ∈ afterSlash bs ↔ bs = slash :: left := by
  cases bs with
  | nil => simp [afterSlash]
  | cons b bs =>
    by_cases hb : b = slash
    · simp [afterSlash, hb, eq_comm]
    · simp [afterSlash, hb]

theorem mem_afterToken_literal :
    left ∈ afterToken false (.literal c) bs ↔ bs = bytesOfChar c ++ left := by
  simp only [afterToken]
  split
  · rename_i hprefix
    obtain ⟨after, rfl⟩ := List.isPrefixOf_iff_prefix.mp hprefix
    simp [eq_comm]
  · rename_i hprefix
    refine iff_of_false List.not_mem_nil ?_
    rintro rfl
    exact hprefix (List.isPrefixOf_iff_prefix.mpr (List.prefix_append _ _))

/-- Behind literal characters is left what is left behind their bytes. -/
theorem mem_afterTokens_literals : rest ∈ afterTokens false (cs.map .literal ++ tokens) bs ↔
    ∃ left, bs = bytesOf (String.ofList cs) ++ left ∧ rest ∈ afterTokens false tokens left := by
  induction cs generalizing bs with
  | nil =>
    rw [bytesOf_nil]
    simp
  | cons c cs ih =>
    rw [List.map_cons, List.cons_append, mem_afterTokens_cons]
    simp only [mem_afterToken_literal, ih, bytesOf_cons, List.append_assoc]
    constructor
    · rintro ⟨_, rfl, left, rfl, h⟩
      exact ⟨left, rfl, h⟩
    · rintro ⟨left, rfl, h⟩
      exact ⟨_, rfl, left, rfl, h⟩

/-- Two stars behind a directory ask for a slash, and for nothing else. -/
theorem nil_mem_afterTokens_below :
    [] ∈ afterTokens false [.innerSegments, .star] bs ↔ ∃ deeper, bs = slash :: deeper := by
  have hstar : ∀ deeper, [] ∈ afterTokens false [.star] deeper := by
    intro deeper
    have hrun : [] ∈ afterRun (wild false) deeper := mem_afterRun.mpr List.nil_suffix
    exact mem_afterTokens_cons.mpr ⟨[], hrun, by simp [afterTokens]⟩
  rw [mem_afterTokens_cons]
  constructor
  · rintro ⟨left, hleft, -⟩
    rw [afterToken, List.mem_flatMap] at hleft
    obtain ⟨deeper, hdeeper, -⟩ := hleft
    exact ⟨deeper, mem_afterSlash.mp hdeeper⟩
  · rintro ⟨deeper, rfl⟩
    refine ⟨deeper, ?_, hstar deeper⟩
    rw [afterToken, List.mem_flatMap]
    exact ⟨deeper, mem_afterSlash.mpr rfl, List.mem_cons_self ..⟩

/-! ## Matching -/

theorem literalTail_literals (cs : List Char) : literalTail (cs.map .literal) = cs.reverse := by
  rw [literalTail, ← List.map_reverse]
  induction cs.reverse with
  | nil => rfl
  | cons c ds ih =>
    rw [List.map_cons, List.takeWhile_cons_of_pos rfl]
    exact congrArg (List.cons c) ih

theorem asksForFile_literals (cs : List Char) : asksForFile false (cs.map .literal) = false := by
  have hbefore : (cs.map GlobToken.literal).take
      ((cs.map GlobToken.literal).length - (literalTail (cs.map .literal)).length) = [] := by
    simp [literalTail_literals]
  simp only [asksForFile, hbefore]

theorem asksForFile_below (cs : List Char) :
    asksForFile false (cs.map .literal ++ [.innerSegments, .star]) = false := by
  have htail : literalTail (cs.map .literal ++ [.innerSegments, .star]) = [] := by
    simp [literalTail]
  have hlength : 2 ≤ (cs.map GlobToken.literal ++ [GlobToken.innerSegments, .star]).length := by
    simp
  simp only [asksForFile, htail, List.length_nil, Nat.sub_zero, List.take_length]
  split
  · rfl
  · rename_i he
    rw [he] at hlength
    simp at hlength
  · rfl
  · rfl
  · rfl

/-- A pattern that does not ask for a file matches if its tokens can leave nothing. -/
theorem matchesText_iff (hne : tokens ≠ [.leadingSegments])
    (hfile : asksForFile false tokens = false) (text : String) :
    matchesText false tokens text = true ↔ [] ∈ afterTokens false tokens (bytesOf text) := by
  unfold matchesText
  split
  · contradiction
  · rw [hfile, Bool.false_and, Bool.not_false, Bool.true_and, List.any_eq_true]
    simp only [List.isEmpty_iff, exists_eq_right]

/-- **Literal characters match the text that they are.** -/
theorem matchesText_literals (cs : List Char) (text : String) :
    matchesText false (cs.map .literal) text = true ↔ text.toList = cs := by
  have hne : cs.map GlobToken.literal ≠ [.leadingSegments] := by cases cs <;> simp
  rw [matchesText_iff hne (asksForFile_literals cs), ← List.append_nil (cs.map _),
    mem_afterTokens_literals]
  constructor
  · rintro ⟨left, hbytes, hleft⟩
    obtain ⟨more, htext, hmore⟩ := exists_append_of_bytesOf
      ((congrArg bytesOf (String.ofList_toList ..)).trans hbytes)
    have hleft : left = [] := by simpa [afterTokens, eq_comm] using hleft
    cases more with
    | nil => rw [htext, List.append_nil]
    | cons c more =>
      rw [hleft, bytesOf_cons] at hmore
      simp [bytesOfChar_ne_nil] at hmore
  · rintro rfl
    exact ⟨[], by rw [String.ofList_toList, List.append_nil], by simp [afterTokens]⟩

/-- **Two stars behind a directory match what lies below it,** however deep. -/
theorem matchesText_below (cs : List Char) (text : String) :
    matchesText false (cs.map .literal ++ [.innerSegments, .star]) text = true ↔
      ∃ deeper, text.toList = cs ++ '/' :: deeper := by
  have hne : cs.map GlobToken.literal ++ [.innerSegments, .star] ≠ [.leadingSegments] := by
    cases cs <;> simp
  rw [matchesText_iff hne (asksForFile_below cs), mem_afterTokens_literals]
  constructor
  · rintro ⟨left, hbytes, hleft⟩
    obtain ⟨bs, rfl⟩ := nil_mem_afterTokens_below.mp hleft
    have hhead : bytesOf (String.ofList text.toList) =
        bytesOf (String.ofList (cs ++ ['/'])) ++ bs := by
      rw [String.ofList_toList, hbytes, String.ofList_append, bytesOf_append, bytesOf_cons,
        bytesOf_nil, bytesOfChar_slash]
      simp
    obtain ⟨deeper, htext, -⟩ := exists_append_of_bytesOf hhead
    exact ⟨deeper, by rw [htext, List.append_assoc, List.singleton_append]⟩
  · rintro ⟨deeper, htext⟩
    refine ⟨slash :: bytesOf (String.ofList deeper), ?_, nil_mem_afterTokens_below.mpr ⟨_, rfl⟩⟩
    rw [← String.ofList_toList (s := text), htext, String.ofList_append, bytesOf_append,
      bytesOf_cons, bytesOfChar_slash]
    rfl

end TypeScriptEngine.Glob
