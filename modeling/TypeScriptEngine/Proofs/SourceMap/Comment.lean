import TypeScriptEngine.Engine.Compile
import TypeScriptEngine.Proofs.Text.Split

/-! # Taking off the comment that names a map

The emitter puts a comment behind the code that names its map, and the host gets the code without the
lines that begin like that comment.  What is left are the lines of the code that do not themselves
begin so, and whatever the name of the map holds behind a line break (`toList_finishCode_comment`).
So the comment is taken off and nothing else just if neither is there (`finishCode_comment_eq_iff`).
-/

namespace TypeScriptEngine

namespace Text

/-- A line without the carriage return of its line break. -/
def withoutReturn (line : List Char) : List Char :=
  if line.getLast? = some '\r' then line.dropLast else line

/-- What stands behind the first line break of a text. -/
def behindBreak (cs : List Char) : List Char := (cs.dropWhile (· != '\n')).tail

theorem mem_of_mem_withoutReturn {c : Char} {line : List Char} (h : c ∈ withoutReturn line) :
    c ∈ line := by
  unfold withoutReturn at h
  split at h
  · exact List.dropLast_subset line h
  · exact h

theorem behindBreak_cons (c : Char) (cs : List Char) :
    behindBreak (c :: cs) = if c = '\n' then cs else behindBreak cs := by
  by_cases hc : c = '\n' <;> simp [behindBreak, hc]

theorem behindBreak_of_not_mem {cs : List Char} (h : '\n' ∉ cs) : behindBreak cs = [] := by
  induction cs with
  | nil => rfl
  | cons c cs ih =>
    obtain ⟨hc, hcs⟩ := not_or.mp (fun hm => h (List.mem_cons.mpr hm))
    rw [behindBreak_cons, if_neg (Ne.symm hc), ih hcs]

theorem behindBreak_line {line : List Char} (h : '\n' ∉ line) (rest : List Char) :
    behindBreak (line ++ '\n' :: rest) = rest := by
  induction line with
  | nil => exact behindBreak_cons '\n' rest
  | cons c cs ih =>
    obtain ⟨hc, hcs⟩ := not_or.mp (fun hm => h (List.mem_cons.mpr hm))
    rw [List.cons_append, behindBreak_cons, if_neg (Ne.symm hc), ih hcs]

theorem behindBreak_eq_nil_iff {cs : List Char} (h : cs.getLast? ≠ some '\n') :
    behindBreak cs = [] ↔ '\n' ∉ cs := by
  refine ⟨fun hbehind hbreak => ?_, behindBreak_of_not_mem⟩
  obtain ⟨line, rest, rfl, hline⟩ := List.eq_append_cons_of_mem hbreak
  rw [behindBreak_line hline] at hbehind
  rw [hbehind, List.getLast?_concat] at h
  exact h rfl

/-! ## Lines with their line breaks -/

theorem fullLines_of_not_mem {line : List Char} (h : '\n' ∉ line) (hne : line ≠ []) :
    fullLines line = [line] := by
  induction line with
  | nil => contradiction
  | cons c cs ih =>
    obtain ⟨hc, hcs⟩ := not_or.mp (fun hm => h (List.mem_cons.mpr hm))
    rw [fullLines, if_neg (Ne.symm hc)]
    cases cs with
    | nil => rfl
    | cons d ds => rw [ih hcs (List.cons_ne_nil d ds)]

theorem fullLines_line {line : List Char} (h : '\n' ∉ line) (rest : List Char) :
    fullLines (line ++ '\n' :: rest) = (line ++ ['\n']) :: fullLines rest := by
  induction line with
  | nil => rw [List.nil_append, fullLines, if_pos rfl, List.nil_append]
  | cons c cs ih =>
    obtain ⟨hc, hcs⟩ := not_or.mp (fun hm => h (List.mem_cons.mpr hm))
    rw [List.cons_append, fullLines, if_neg (Ne.symm hc), ih hcs, List.cons_append]

theorem fullLines_joinWith {parts : List (List Char)} (hne : parts ≠ [])
    (h : ∀ part ∈ parts, '\n' ∉ part) (rest : List Char) :
    fullLines (joinWith ['\n'] parts ++ '\n' :: rest) =
      parts.map (· ++ ['\n']) ++ fullLines rest := by
  induction parts with
  | nil => contradiction
  | cons part parts ih =>
    have hpart := h part (List.mem_cons_self ..)
    cases parts with
    | nil => exact fullLines_line hpart rest
    | cons next parts =>
      have hrest := ih (List.cons_ne_nil next parts) fun p hp => h p (List.mem_cons_of_mem _ hp)
      rw [joinWith, List.append_assoc, List.append_assoc, List.singleton_append,
        fullLines_line hpart, hrest]
      rfl

/-- A text in front of a line break is cut into its lines. -/
theorem fullLines_append_break (code rest : List Char) :
    fullLines (code ++ '\n' :: rest) = (lines code).map (· ++ ['\n']) ++ fullLines rest := by
  have h := fullLines_joinWith (splitOn_ne_nil '\n' code)
    (fun _ => not_mem_of_mem_splitOn) rest
  rwa [joinWith_splitOn] at h

theorem flatten_fullLines (cs : List Char) : (fullLines cs).flatten = cs := by
  induction cs with
  | nil => rfl
  | cons c cs ih =>
    rw [fullLines]
    split
    · rw [List.flatten_cons, ih]
      rfl
    · cases hcs : fullLines cs with
      | nil =>
        rw [hcs] at ih
        rw [← ih]
        rfl
      | cons line lines =>
        rw [hcs] at ih
        rw [← ih]
        rfl

theorem flatMap_lines (code : List Char) :
    (lines code).flatMap (· ++ ['\n']) = code ++ ['\n'] := by
  have h := congrArg List.flatten (fullLines_append_break code [])
  rw [flatten_fullLines, fullLines, List.append_nil, ← List.flatMap_def] at h
  exact h.symm

end Text

/-! ## Line ends -/

open Text

theorem unifyLineEnds_line {line : List Char} (h : '\n' ∉ line) (rest : List Char) :
    unifyLineEnds (line ++ '\n' :: rest) = withoutReturn line ++ '\n' :: unifyLineEnds rest := by
  induction line using unifyLineEnds.induct with
  | case1 cs ih => exact absurd (List.mem_cons_of_mem _ (List.mem_cons_self ..)) h
  | case2 c cs hpair ih =>
    have hcs : '\n' ∉ cs := fun hm => h (List.mem_cons_of_mem _ hm)
    cases cs with
    | nil =>
      by_cases hc : c = '\r'
      · rw [hc]
        rfl
      · rw [List.cons_append, unifyLineEnds, ih hcs]
        · simp [withoutReturn, hc]
        · rintro cs rfl
          contradiction
    | cons d ds =>
      have hd : d ≠ '\n' := fun hd => hcs (hd ▸ List.mem_cons_self ..)
      rw [List.cons_append, unifyLineEnds, ih hcs]
      · simp only [withoutReturn, List.getLast?_cons_cons]
        split <;> rfl
      · rintro cs rfl he
        exact hd (List.cons.inj he).1
  | case3 => rfl

theorem unifyLineEnds_flatMap {parts : List (List Char)} (h : ∀ part ∈ parts, '\n' ∉ part)
    (rest : List Char) :
    unifyLineEnds (parts.flatMap (· ++ ['\n']) ++ rest) =
      (parts.map withoutReturn).flatMap (· ++ ['\n']) ++ unifyLineEnds rest := by
  induction parts with
  | nil => rfl
  | cons part parts ih =>
    rw [List.flatMap_cons, List.append_assoc, List.append_assoc, List.singleton_append,
      unifyLineEnds_line (h part (List.mem_cons_self ..)),
      ih fun p hp => h p (List.mem_cons_of_mem _ hp), List.map_cons, List.flatMap_cons,
      List.append_assoc, List.append_assoc, List.singleton_append]

/-- Only carriage returns are lost. -/
theorem count_unifyLineEnds {c : Char} (hc : c ≠ '\r') (cs : List Char) :
    (unifyLineEnds cs).count c = cs.count c := by
  induction cs using unifyLineEnds.induct with
  | case1 cs ih => simp [unifyLineEnds, List.count_cons, ih, Ne.symm hc]
  | case2 d cs hpair ih =>
    rw [unifyLineEnds, List.count_cons, List.count_cons, ih]
    exact hpair
  | case3 => rfl

theorem unifyLineEnds_eq_nil_iff {cs : List Char} : unifyLineEnds cs = [] ↔ cs = [] := by
  constructor
  · intro h
    induction cs using unifyLineEnds.induct with
    | case1 cs ih => contradiction
    | case2 c cs hpair ih =>
      rw [unifyLineEnds] at h
      · contradiction
      · exact hpair
    | case3 => rfl
  · rintro rfl
    rfl

namespace SourceMap

/-! ## The lines that name a map -/

theorem isUrlLine_append_break (line : List Char) :
    isUrlLine (line ++ ['\n']) = isUrlLine line := by
  unfold isUrlLine trimStart
  rw [List.dropWhile_append]
  split
  · rename_i hempty
    rw [List.isEmpty_iff.mp hempty]
    rfl
  · rw [Bool.eq_iff_iff, List.isPrefixOf_iff_prefix, List.isPrefixOf_iff_prefix]
    constructor
    · intro h
      rcases List.prefix_concat_iff.mp h with he | h
      · -- the comment does not end with a line break
        have hlast := congrArg List.getLast? he
        rw [List.getLast?_concat] at hlast
        exact absurd hlast (by decide)
      · exact h
    · exact fun h => h.trans (List.prefix_append _ _)

theorem slash_mem_of_isUrlLine {line : List Char} (h : isUrlLine line = true) : '/' ∈ line := by
  have hbegins := (List.isPrefixOf_iff_prefix.mp h).sublist.subset
  exact (List.dropWhile_sublist isBlank).subset (hbegins (by decide))

theorem stripUrl_eq_self {cs : List Char} (h : '/' ∉ cs) : stripUrl cs = cs := by
  have hkept : (fullLines cs).filter (fun line => !isUrlLine line) = fullLines cs := by
    refine List.filter_eq_self.mpr fun line hline => ?_
    rw [Bool.not_eq_true', ← Bool.not_eq_true]
    intro hurl
    refine h ?_
    rw [← flatten_fullLines cs]
    exact List.mem_flatten_of_mem hline (slash_mem_of_isUrlLine hurl)
  rw [stripUrl, hkept, flatten_fullLines]

/-- The lines of some code that do not name a map. -/
def codeLines (code : List Char) : List (List Char) :=
  (lines code).filter fun line => !isUrlLine line

theorem not_mem_of_mem_codeLines {code line : List Char} (h : line ∈ codeLines code) :
    '\n' ∉ line :=
  not_mem_of_mem_splitOn (List.mem_filter.mp h).1

theorem codeLines_eq_iff {code : List Char} :
    codeLines code = lines code ↔ ∀ line ∈ lines code, isUrlLine line = false := by
  rw [codeLines, List.filter_eq_self]
  simp only [Bool.not_eq_true']

/-- If a line is left out then so are slashes. -/
theorem count_codeLines (code : List Char) :
    ((codeLines code).flatMap (· ++ ['\n'])).count '/' ≤ (code ++ ['\n']).count '/' ∧
      ((∃ line ∈ lines code, isUrlLine line = true) →
        ((codeLines code).flatMap (· ++ ['\n'])).count '/' < (code ++ ['\n']).count '/') := by
  rw [← flatMap_lines, codeLines]
  induction lines code with
  | nil => simp
  | cons line lines ih =>
    obtain ⟨hle, hlt⟩ := ih
    cases hurl : isUrlLine line with
    | true =>
      have hslash : 0 < line.count '/' := List.count_pos_iff.mpr (slash_mem_of_isUrlLine hurl)
      rw [List.filter_cons_of_neg (by simp [hurl])]
      simp only [List.flatMap_cons, List.count_append]
      refine ⟨by omega, fun _ => by omega⟩
    | false =>
      rw [List.filter_cons_of_pos (by simp [hurl])]
      simp only [List.flatMap_cons, List.count_append]
      refine ⟨by omega, fun ⟨url, hmem, hurl'⟩ => ?_⟩
      rcases List.mem_cons.mp hmem with rfl | hmem
      · rw [hurl] at hurl'
        contradiction
      · have := hlt ⟨url, hmem, hurl'⟩
        omega

/-! ## Code with its comment -/

theorem isUrlLine_comment (tail : List Char) : isUrlLine (urlComment ++ tail) = true := by
  have htrim : trimStart (urlComment ++ tail) = urlComment ++ tail := rfl
  rw [isUrlLine, htrim, List.isPrefixOf_iff_prefix]
  exact List.prefix_append _ _

/-- Only the first line of the comment begins like it. -/
theorem stripUrl_urlComment {name : List Char} (h : '/' ∉ name) :
    stripUrl (urlComment ++ name) = behindBreak name := by
  have hurl : '\n' ∉ urlComment := by decide
  by_cases hbreak : '\n' ∈ name
  · obtain ⟨first, rest, rfl, hfirst⟩ := List.eq_append_cons_of_mem hbreak
    have hline : '\n' ∉ urlComment ++ first := by
      rw [List.mem_append, not_or]
      exact ⟨hurl, hfirst⟩
    have hdropped : isUrlLine (urlComment ++ first ++ ['\n']) = true := by
      rw [isUrlLine_append_break, isUrlLine_comment]
    have hrest : '/' ∉ rest := fun hmem =>
      h (List.mem_append_right _ (List.mem_cons_of_mem _ hmem))
    rw [behindBreak_line hfirst, ← List.append_assoc, stripUrl, fullLines_line hline,
      List.filter_cons_of_neg (by rw [hdropped]; decide), ← stripUrl, stripUrl_eq_self hrest]
  · have hline : '\n' ∉ urlComment ++ name := by
      rw [List.mem_append, not_or]
      exact ⟨hurl, hbreak⟩
    have hne : urlComment ++ name ≠ [] := List.append_ne_nil_of_left_ne_nil (by decide) _
    rw [behindBreak_of_not_mem hbreak, stripUrl, fullLines_of_not_mem hline hne,
      List.filter_cons_of_neg (by rw [isUrlLine_comment]; decide)]
    rfl

/-- The lines that begin like the comment are taken out, wherever they come from. -/
theorem stripUrl_comment (code : List Char) {name : List Char} (h : '/' ∉ name) :
    stripUrl (code ++ '\n' :: (urlComment ++ name)) =
      (codeLines code).flatMap (· ++ ['\n']) ++ behindBreak name := by
  have hcode : (((lines code).map (· ++ ['\n'])).filter fun line => !isUrlLine line) =
      (codeLines code).map (· ++ ['\n']) := by
    rw [codeLines, List.filter_map]
    congr 2
    funext line
    rw [Function.comp_apply, isUrlLine_append_break]
  rw [stripUrl, fullLines_append_break, List.filter_append, List.flatten_append, ← stripUrl,
    stripUrl_urlComment h, hcode, ← List.flatMap_def]

/-- **What the host gets of code that comes with the comment.** -/
theorem toList_finishCode_comment (code : List Char) {name : String} (h : '/' ∉ name.toList) :
    (finishCode (String.ofList code ++ ("\n//# sourceMappingURL=" ++ name))).toList =
      ((codeLines code).map withoutReturn).flatMap (· ++ ['\n']) ++
        unifyLineEnds (behindBreak name.toList) := by
  have htext : (String.ofList code ++ ("\n//# sourceMappingURL=" ++ name)).toList =
      code ++ '\n' :: (urlComment ++ name.toList) := by
    simp only [String.toList_append, String.toList_ofList]
    rfl
  rw [finishCode, htext, stripUrl_comment code h, String.toList_ofList,
    unifyLineEnds_flatMap fun _ => not_mem_of_mem_codeLines]

/-- The host gets all of the code and its last line break just if no line of it begins like the
comment and the comment has a single line. -/
theorem finishCode_comment_eq_iff (code : List Char) {name : String} (h : '/' ∉ name.toList) :
    finishCode (String.ofList code ++ ("\n//# sourceMappingURL=" ++ name)) =
        String.ofList (unifyLineEnds (code ++ ['\n'])) ↔
      (∀ line ∈ lines code, isUrlLine line = false) ∧ behindBreak name.toList = [] := by
  have hall : unifyLineEnds (code ++ ['\n']) =
      ((lines code).map withoutReturn).flatMap (· ++ ['\n']) := by
    have hbreaks : ∀ line ∈ lines code, '\n' ∉ line := fun _ => not_mem_of_mem_splitOn
    have hlines := unifyLineEnds_flatMap hbreaks []
    rw [List.append_nil, flatMap_lines] at hlines
    exact hlines.trans (List.append_nil _)
  rw [← String.toList_inj, toList_finishCode_comment code h, String.toList_ofList]
  constructor
  · intro he
    have hkept : ∀ line ∈ lines code, isUrlLine line = false := by
      by_contra hurl
      obtain ⟨line, hline, hurl⟩ : ∃ line ∈ lines code, isUrlLine line = true := by
        simpa using hurl
      -- slashes are neither in line breaks nor in the name
      have hcount := congrArg (List.count '/') he
      have htail : (unifyLineEnds (behindBreak name.toList)).count '/' = 0 := by
        rw [count_unifyLineEnds (by decide), List.count_eq_zero]
        exact fun hmem => h ((List.dropWhile_sublist _).subset (List.mem_of_mem_tail hmem))
      have hfewer := (count_codeLines code).2 ⟨line, hline, hurl⟩
      have hcode : (((codeLines code).map withoutReturn).flatMap (· ++ ['\n'])).count '/' =
          ((codeLines code).flatMap (· ++ ['\n'])).count '/' := by
        have hbreaks : ∀ line ∈ codeLines code, '\n' ∉ line := fun _ => not_mem_of_mem_codeLines
        have hunify := unifyLineEnds_flatMap hbreaks []
        rw [List.append_nil] at hunify
        rw [← count_unifyLineEnds (by decide) ((codeLines code).flatMap _), hunify, unifyLineEnds,
          List.append_nil]
      rw [List.count_append, htail, hcode, count_unifyLineEnds (by decide)] at hcount
      omega
    refine ⟨hkept, ?_⟩
    rw [codeLines_eq_iff.mpr hkept, hall] at he
    exact unifyLineEnds_eq_nil_iff.mp (List.append_right_eq_self.mp he)
  · rintro ⟨hkept, hname⟩
    rw [codeLines_eq_iff.mpr hkept, hname, hall]
    exact List.append_nil _

end SourceMap

end TypeScriptEngine
