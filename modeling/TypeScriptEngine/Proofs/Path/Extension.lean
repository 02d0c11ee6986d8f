import TypeScriptEngine.Proofs.Path.Absolute

/-! # The extension of a path

The extension belongs to the last name of a path.  What a path ends with is what its last name ends
with, as far as no slash is asked for (`endsWith_ofNames_concat`), and a path of names with another
extension passes the same directories (`withExtension_ofNames_concat`).
-/

namespace TypeScriptEngine

namespace Text

theorem endsWith_iff {s t : String} : s.endsWith t = true ↔ t.toList <:+ s.toList := by
  rw [← String.endsWith_toSlice, String.Slice.endsWith_string_iff, String.copy_toSlice]

/-- What holds no separator is at the end of a text just if it is at the end of the last part. -/
theorem suffix_append_cons {sep : Char} {ending : List Char} (h : sep ∉ ending) (cs part : List Char) :
    ending <:+ cs ++ sep :: part ↔ ending <:+ part := by
  constructor
  · intro hend
    have hpart : sep :: part <:+ cs ++ sep :: part := List.suffix_append _ _
    rcases List.suffix_or_suffix_of_suffix hend hpart with hshort | hlong
    · rcases List.suffix_cons_iff.mp hshort with rfl | hshort
      · exact absurd (List.mem_cons_self ..) h
      · exact hshort
    · exact absurd (hlong.subset (List.mem_cons_self ..)) h
  · intro hend
    exact hend.trans ((List.suffix_cons sep part).trans (List.suffix_append cs _))

end Text

/-- What ends with a text ends with no other text of which neither ends with the other. -/
theorem endsWith_eq_false {s a b : String} (h : s.endsWith b = true)
    (hab : ¬ a.toList <:+ b.toList) (hba : ¬ b.toList <:+ a.toList) : s.endsWith a = false := by
  refine Bool.eq_false_iff.mpr fun ha => ?_
  rcases List.suffix_or_suffix_of_suffix (Text.endsWith_iff.mp ha) (Text.endsWith_iff.mp h) with
    hsuffix | hsuffix
  · exact hab hsuffix
  · exact hba hsuffix

theorem endsWith_append_self (s a : String) : (s ++ a).endsWith a = true := by
  rw [Text.endsWith_iff, String.toList_append]
  exact List.suffix_append _ _

theorem endsWith_append {s a : String} (h : s.endsWith a = true) (b : String) :
    (s ++ b).endsWith (a ++ b) = true := by
  rw [Text.endsWith_iff] at h ⊢
  rw [String.toList_append, String.toList_append]
  exact (List.suffix_append_inj_of_length_eq rfl).mpr ⟨h, rfl⟩

namespace Path

open Segment

/-- The stem of a name: what stands before its last dot, or all of it. -/
def stemOf (name : String) : String := String.ofList (splitName name.toList).1

variable {names : List String} {name : String}

theorem stemOf_prefix_self (name : String) : (stemOf name).toList <+: name.toList := by
  rw [stemOf, String.toList_ofList]
  simp only [splitName]
  split
  · exact List.take_prefix _ _
  · exact List.prefix_refl _

theorem stemOf_ne_nil (h : name.toList ≠ []) : (stemOf name).toList ≠ [] := by
  rw [stemOf, String.toList_ofList]
  simp only [splitName]
  split
  · rename_i hlength
    rw [← List.length_pos_iff, List.length_take]
    omega
  · exact h

/-- A name with another extension is a name. -/
theorem isName_stemOf_append (h : IsName name) {extension : String} (hne : extension.toList ≠ [])
    (hslash : '/' ∉ extension.toList) : IsName (stemOf name ++ "." ++ extension) := by
  have hstem := List.length_pos_iff.mpr (stemOf_ne_nil h.1)
  have hextension := List.length_pos_iff.mpr hne
  have hdot : ".".toList = ['.'] := rfl
  refine isName_of_length ?_ ?_
  · rw [String.toList_append, String.toList_append, List.length_append, List.length_append, hdot,
      List.length_singleton]
    omega
  · rw [String.toList_append, String.toList_append, hdot, List.mem_append, List.mem_append, not_or,
      not_or]
    exact ⟨⟨fun hmem => h.2.2.2 ((stemOf_prefix_self name).subset hmem), by decide⟩, hslash⟩

/-! ## Paths of names -/

theorem fileName?_ofNames_concat (h : ∀ n ∈ names ++ [name], IsName n) :
    (ofNames (names ++ [name])).fileName? = some name := by
  rw [fileName?, segments_ofNames h, List.map_append, ← List.cons_append, List.map_singleton,
    List.getLast?_concat]
  rfl

theorem fileName?_ofNames_nil : (ofNames []).fileName? = none := by decide

/-- **A path of names ends as its last name does.** -/
theorem endsWith_ofNames_concat (h : ∀ n ∈ names ++ [name], IsName n) {ending : String}
    (hslash : '/' ∉ ending.toList) :
    (ofNames (names ++ [name])).text.endsWith ending = name.endsWith ending := by
  have hinit := fun n hn => h n (List.mem_append_left _ hn)
  have hlast := h name (List.mem_append_right _ (List.mem_singleton_self _))
  apply Bool.eq_iff_iff.mpr
  rw [Text.endsWith_iff, Text.endsWith_iff, toList_ofNames_concat hinit hlast,
    Text.suffix_append_cons hslash]

/-- **With another extension, a path of names passes the same directories.** -/
theorem withExtension_ofNames_concat (h : ∀ n ∈ names ++ [name], IsName n) {extension : String}
    (hne : extension.toList ≠ []) (hslash : '/' ∉ extension.toList) :
    (ofNames (names ++ [name])).withExtension extension =
      ofNames (names ++ [stemOf name ++ "." ++ extension]) := by
  have hinit := fun n hn => h n (List.mem_append_left _ hn)
  have hlast := h name (List.mem_append_right _ (List.mem_singleton_self _))
  have hnew := isName_stemOf_append hlast hne hslash
  have htext := toList_ofNames_concat hinit hlast
  have htext' := toList_ofNames_concat hinit hnew
  have hdirectory : ∀ before : List Char, (before ++ '/' :: name.toList).take
      ((before ++ '/' :: name.toList).length - name.length) = before ++ ['/'] := by
    intro before
    have hlength : (before ++ '/' :: name.toList).length - name.length =
        (before ++ ['/']).length := by
      simp only [List.length_append, List.length_cons, List.length_nil, String.length_toList]
      omega
    have hsplit : before ++ '/' :: name.toList = before ++ ['/'] ++ name.toList := by simp
    rw [hlength, hsplit, List.take_left]
  have hspelled : ((ofNames (names ++ [name])).withExtension extension).text =
      (ofNames (names ++ [stemOf name ++ "." ++ extension])).text := by
    rw [withExtension, fileName?_ofNames_concat h]
    simp only [headLength_of_isAbsolute (isAbsolute_ofNames h), trimEnd_ofNames h]
    refine String.toList_inj.mp ?_
    rw [htext, hdirectory, htext']
    simp [stemOf, List.append_assoc]
  exact congrArg Path.mk hspelled

theorem withExtension_ofNames_nil (extension : String) :
    (ofNames []).withExtension extension = ofNames [] := by
  rw [withExtension, fileName?_ofNames_nil]

/-! ## Extensions -/

/-- What stands behind the last dot is the extension, if something stands before it. -/
theorem splitName_append {before extension : List Char} (hbefore : before ≠ [])
    (hextension : '.' ∉ extension) :
    splitName (before ++ '.' :: extension) = (before, some extension) := by
  have hrun : (before ++ '.' :: extension).reverse.takeWhile (· != '.') = extension.reverse := by
    have hall : ∀ c ∈ extension.reverse, (c != '.') = true := by
      intro c hc
      rw [bne_iff_ne]
      rintro rfl
      exact hextension (List.mem_reverse.mp hc)
    rw [List.reverse_append, List.reverse_cons, List.append_assoc,
      List.takeWhile_append_of_pos hall]
    simp
  have hlength := List.length_pos_iff.mpr hbefore
  have htake : (before ++ '.' :: extension).length - extension.length - 1 = before.length := by
    rw [List.length_append, List.length_cons]
    omega
  simp only [splitName, hrun, List.reverse_reverse, htake, List.take_left]
  rw [if_pos (by rw [List.length_append, List.length_cons]; omega)]

/-- A name with an extension is its stem, a dot and the extension. -/
theorem toList_of_splitName {cs extension : List Char} (h : (splitName cs).2 = some extension) :
    cs = (splitName cs).1 ++ '.' :: extension := by
  have hsplit : cs.reverse.takeWhile (· != '.') ++ cs.reverse.dropWhile (· != '.') = cs.reverse :=
    List.takeWhile_append_dropWhile
  have hfirst := List.head_dropWhile_not (· != '.') (l := cs.reverse)
  simp only [splitName] at h ⊢
  generalize cs.reverse.takeWhile (· != '.') = run at h hsplit ⊢
  split at h
  · rename_i hlength
    obtain rfl := Option.some.inj h
    rw [if_pos hlength]
    -- something is left behind the characters that are no dots, and it begins with one
    cases hrest : cs.reverse.dropWhile (· != '.') with
    | nil =>
      rw [hrest, List.append_nil] at hsplit
      rw [hsplit, List.reverse_reverse] at hlength
      omega
    | cons c rest =>
      have hc : c = '.' := by
        simpa [hrest] using hfirst (by simp [hrest])
      have hcs : cs = rest.reverse ++ '.' :: run.reverse := by
        rw [← List.reverse_inj, ← hsplit, hrest, hc]
        simp
      have htake : cs.length - run.reverse.length - 1 = rest.reverse.length := by
        rw [hcs, List.length_append, List.length_cons]
        omega
      rw [htake]
      conv_lhs => rw [hcs]
      rw [hcs, List.take_left]
  · contradiction

theorem extension?_ofNames_concat {extension : String}
    (h : ∀ n ∈ names ++ [name ++ "." ++ extension], IsName n) (hname : name.toList ≠ [])
    (hextension : '.' ∉ extension.toList) :
    (ofNames (names ++ [name ++ "." ++ extension])).extension? = some extension := by
  have htext : (name ++ "." ++ extension).toList = name.toList ++ '.' :: extension.toList := by
    simp
  rw [Path.extension?, fileName?_ofNames_concat h, Option.bind_some, htext,
    splitName_append hname hextension, Option.map_some, String.ofList_toList]

/-- A path of names with some characters behind it has them behind its last name. -/
theorem text_append_ofNames (names : List String) (hname : IsName name) {ending : String}
    (h : IsName (name ++ ending)) :
    (⟨(ofNames (names ++ [name])).text ++ ending⟩ : Path) = ofNames (names ++ [name ++ ending]) := by
  have hplain : (Segment.name name).Plain := hname
  have hplain' : (Segment.name (name ++ ending)).Plain := h
  rw [← ofNames_join, ← ofNames_join]
  show (⟨((ofNames names).join ⟨(Segment.name name).text⟩).text ++ ending⟩ : Path) =
    (ofNames names).join ⟨(Segment.name (name ++ ending)).text⟩
  rw [join_text hplain, join_text hplain']
  split
  · exact congrArg Path.mk (String.append_assoc ..)
  · exact congrArg Path.mk (String.append_assoc ..)

end Path

end TypeScriptEngine
