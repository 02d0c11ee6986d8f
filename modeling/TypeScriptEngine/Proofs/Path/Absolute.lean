import Mathlib.Data.List.TakeWhile
import TypeScriptEngine.Proofs.Path.Normal

/-! # Paths of names

A path that begins at the root is, once it is normal, spelled by the names that it passes
(`exists_ofNames`).  Such paths go over into each other when a name is joined, an extension is put
behind or the directory is taken.
-/

namespace TypeScriptEngine

namespace Segment

/-- What is longer than two dots and holds no slash is a name. -/
theorem isName_of_length {text : String} (hlong : 2 < text.toList.length)
    (hslash : '/' ∉ text.toList) : IsName text := by
  have hne : ∀ cs : List Char, cs.length ≤ 2 → text.toList ≠ cs := by
    rintro cs hcs he
    rw [he] at hlong
    omega
  exact ⟨hne _ (by decide), hne _ (by decide), hne _ (by decide), hslash⟩

theorem isName_append_json {s : Segment} (hs : s.Plain) : IsName (s.text ++ ".json") := by
  have hjson : ".json".toList.length = 5 := rfl
  refine isName_of_length ?_ ?_
  · rw [String.toList_append, List.length_append]
    omega
  · rw [String.toList_append, List.mem_append, not_or]
    exact ⟨slash_not_mem_text hs, by decide⟩

end Segment

namespace Path

open Segment

/-! ## Segments one after the other -/

theorem ofSegments_concat (segments : List Segment) (s : Segment) :
    ofSegments (segments ++ [s]) = (ofSegments segments).join ⟨s.text⟩ := by
  rw [ofSegments, List.foldl_append]
  rfl

/-- What is put behind a path is put behind its last segment. -/
theorem ofSegments_append_json (segments : List Segment) {s : Segment} (hs : s.Plain) :
    (⟨(ofSegments (segments ++ [s])).text ++ ".json"⟩ : Path) =
      ofSegments (segments ++ [.name (s.text ++ ".json")]) := by
  have hname : (Segment.name (s.text ++ ".json")).Plain := isName_append_json hs
  rw [ofSegments_concat, ofSegments_concat, join_text hs, join_text hname]
  split
  · exact congrArg Path.mk (String.append_assoc ..)
  · exact congrArg Path.mk (String.append_assoc ..)

theorem settled_concat {segments : List Segment} (h : Settled segments) {text : String}
    (htext : IsName text) : Settled (segments ++ [.name text]) := by
  obtain ⟨head, names, hhead, hnames, rfl⟩ := h
  refine ⟨head, names ++ [text], hhead, ?_, ?_⟩
  · intro name hname
    rcases List.mem_append.mp hname with hname | hname
    · exact hnames name hname
    · exact List.mem_singleton.mp hname ▸ htext
  · rw [List.map_append, List.append_assoc]
    rfl

/-- Settled segments are no longer so if names or parents are left out at the end, unless that is
all there is. -/
theorem settled_of_concat {segments : List Segment} {s : Segment} (h : Settled (segments ++ [s])) :
    Settled segments ∧ s.Plain ∨ segments = [] ∧ s = .root := by
  obtain ⟨head, names, hhead, hnames, he⟩ := h
  rcases List.eq_nil_or_concat names with rfl | ⟨init, last, rfl⟩
  · rw [List.map_nil, List.append_nil] at he
    rcases hhead with rfl | ⟨k, rfl⟩
    · cases segments with
      | nil => exact Or.inr ⟨rfl, by simpa using he⟩
      | cons t segments => simp at he
    · cases k with
      | zero => simp at he
      | succ k =>
        rw [List.replicate_succ'] at he
        obtain ⟨rfl, hs⟩ := List.append_inj' he rfl
        obtain rfl := List.singleton_inj.mp hs
        exact Or.inl ⟨⟨List.replicate k .up, [], Or.inr ⟨k, rfl⟩, by simp, by simp⟩, trivial⟩
  · rw [List.concat_eq_append] at he hnames
    rw [List.map_append, ← List.append_assoc] at he
    obtain ⟨rfl, hs⟩ := List.append_inj' he rfl
    obtain rfl := List.singleton_inj.mp hs
    refine Or.inl ⟨⟨head, init, hhead, fun name hname => ?_, rfl⟩, ?_⟩
    · exact hnames name (List.mem_append_left _ hname)
    · exact hnames last (List.mem_append_right _ (List.mem_singleton_self _))

/-- Settled segments are spelled in the normal form. -/
theorem isNormal_ofSegments {segments : List Segment} (h : Settled segments)
    (hne : segments ≠ []) : (ofSegments segments).IsNormal := by
  have hsegments : normalSegments (ofSegments segments).segments = segments := by
    rw [segments_ofSegments h hne, normalSegments_of_settled h]
  show (ofSegments segments).normalize = _
  rw [normalize, hsegments]
  cases segments with
  | nil => contradiction
  | cons s segments => rfl

/-- A normal path is a dot, or spelled by settled segments. -/
theorem IsNormal.cases {p : Path} (h : p.IsNormal) :
    p = ⟨"."⟩ ∨ ∃ segments, Settled segments ∧ segments ≠ [] ∧ p = ofSegments segments := by
  have hp : p.normalize = p := h
  unfold normalize at hp
  split at hp
  · exact Or.inl hp.symm
  · rename_i hne
    exact Or.inr ⟨_, settled_normalSegments p, hne, hp.symm⟩

/-! ## Absolute paths -/

/-- The absolute path that passes some names. -/
def ofNames (names : List String) : Path := ofSegments (.root :: names.map .name)

variable {names : List String} {name : String}

/-- An absolute path is spelled with a slash at its head, and its segments stand behind the root. -/
theorem exists_partsOf {p : Path} (h : p.isAbsolute = true) :
    ∃ cs, p.text.toList = '/' :: cs ∧ p.segments = .root :: partsOf cs := by
  unfold isAbsolute at h
  cases hcs : p.text.toList with
  | nil => simp [hcs] at h
  | cons c cs =>
    have hc : c = '/' := by simpa [hcs] using h
    subst hc
    exact ⟨cs, rfl, by rw [segments, hcs, segmentsOf_slash]⟩

theorem isName_concat (h : ∀ name ∈ names, IsName name) (hname : IsName name) :
    ∀ n ∈ names ++ [name], IsName n := by
  intro n hn
  rcases List.mem_append.mp hn with hn | hn
  · exact h n hn
  · exact List.mem_singleton.mp hn ▸ hname

theorem settled_root (h : ∀ name ∈ names, IsName name) : Settled (.root :: names.map .name) :=
  ⟨[.root], names, Or.inl rfl, h, rfl⟩

theorem segments_ofNames (h : ∀ name ∈ names, IsName name) :
    (ofNames names).segments = .root :: names.map .name :=
  segments_ofSegments (settled_root h) (List.cons_ne_nil _ _)

/-- The root stays at the head of a walk. -/
theorem getLast?_foldl_step {segments walked : List Segment}
    (hs : ∀ s ∈ segments, s.Plain) (hw : walked.getLast? = some .root) :
    (segments.foldl step walked).getLast? = some .root := by
  induction segments generalizing walked with
  | nil => exact hw
  | cons s segments ih =>
    refine ih (fun t ht => hs t (List.mem_cons_of_mem _ ht)) ?_
    have hplain := hs s (List.mem_cons_self ..)
    cases s with
    | root | here => exact hplain.elim
    | name text =>
      rw [step_name]
      cases walked with
      | nil => contradiction
      | cons t walked => exact hw
    | up =>
      cases walked with
      | nil => contradiction
      | cons t walked =>
        cases t with
        | name text =>
          cases walked with
          | nil => simp at hw
          | cons u walked => exact hw
        | root =>
          cases walked with
          | nil => rfl
          | cons u walked => exact hw
        | here | up =>
          cases walked with
          | nil => simp at hw
          | cons u walked => exact hw

/-- **The normal form of an absolute path is spelled by names.** -/
theorem exists_ofNames {p : Path} (h : p.isAbsolute = true) :
    ∃ names, (∀ name ∈ names, IsName name) ∧ p.normalize = ofNames names := by
  obtain ⟨cs, -, hsegments⟩ := exists_partsOf h
  have hlast : (p.segments.foldl step []).getLast? = some .root := by
    rw [hsegments, List.foldl_cons]
    exact getLast?_foldl_step (fun _ => plain_of_mem_partsOf) rfl
  have hhead : (normalSegments p.segments).head? = some .root := by
    rw [normalSegments, List.head?_reverse, hlast]
  obtain ⟨head, names, hhead', hnames, he⟩ := settled_normalSegments p
  rw [he] at hhead
  rcases hhead' with rfl | ⟨k, rfl⟩
  · refine ⟨names, hnames, ?_⟩
    rw [normalize, he]
    rfl
  · cases k with
    | zero => cases names <;> simp at hhead
    | succ k => simp [List.replicate_succ] at hhead

/-- The text of a path of names. -/
theorem toList_ofNames_concat (h : ∀ name ∈ names, IsName name) (hname : IsName name) :
    (ofNames (names ++ [name])).text.toList =
      (if names = [] then [] else (ofNames names).text.toList) ++ '/' :: name.toList := by
  have hplain := plain_names h
  cases names with
  | nil =>
    have htext := @toList_ofSegments_root (.name name) [] hname (by simp)
    rw [spellBehind, List.flatMap_nil, List.append_nil] at htext
    rw [if_pos rfl]
    exact htext
  | cons first names =>
    have hfirst := hplain (.name first) (List.mem_cons_self ..)
    have hrest := fun t ht => hplain t (List.mem_cons_of_mem _ ht)
    have hrest' : ∀ t ∈ names.map Segment.name ++ [.name name], t.Plain := by
      intro t ht
      rcases List.mem_append.mp ht with ht | ht
      · exact hrest t ht
      · exact List.mem_singleton.mp ht ▸ hname
    have htext := toList_ofSegments_root hfirst hrest
    have htext' := toList_ofSegments_root hfirst hrest'
    rw [if_neg (List.cons_ne_nil _ _), ofNames, ofNames, List.map_append, List.map_cons,
      List.cons_append, List.map_singleton, htext', htext]
    simp [spellBehind, Segment.text]

theorem isAbsolute_ofNames (h : ∀ name ∈ names, IsName name) : (ofNames names).isAbsolute = true := by
  have hplain := plain_names h
  cases names with
  | nil => rfl
  | cons first names =>
    have htext := toList_ofSegments_root (hplain (.name first) (List.mem_cons_self ..))
      fun t ht => hplain t (List.mem_cons_of_mem _ ht)
    rw [isAbsolute]
    show ((ofSegments (.root :: .name first :: names.map .name)).text.toList.head? == some '/') = true
    rw [htext]
    rfl

theorem toList_ofNames_ne_nil (h : ∀ name ∈ names, IsName name) :
    (ofNames names).text.toList ≠ [] := by
  intro he
  have habsolute := isAbsolute_ofNames h
  simp [isAbsolute, he] at habsolute

/-- A path joined to an absolute one is absolute. -/
theorem isAbsolute_join {p : Path} (h : p.isAbsolute = true) (q : Path) :
    (p.join q).isAbsolute = true := by
  unfold join
  cases hq : q.isAbsolute with
  | true => rwa [if_pos rfl]
  | false =>
    obtain ⟨cs, hcs, -⟩ := exists_partsOf h
    rw [if_neg (by decide), isAbsolute]
    simp only
    split <;> simp [hcs]

theorem ofNames_join (names : List String) (name : String) :
    (ofNames names).join ⟨name⟩ = ofNames (names ++ [name]) := by
  rw [ofNames, ofNames, List.map_append, ← List.cons_append]
  exact (ofSegments_concat _ (.name name)).symm

/-! ## Directories -/

theorem lastPart_append_slash (cs : List Char) {part : List Char} (h : '/' ∉ part) :
    lastPart (cs ++ '/' :: part) = part := by
  have hall : ∀ c ∈ part.reverse, (c != '/') = true := by
    intro c hc
    rw [bne_iff_ne]
    rintro rfl
    exact h (List.mem_reverse.mp hc)
  rw [lastPart, List.reverse_append, List.reverse_cons, List.append_assoc,
    List.takeWhile_append_of_pos hall]
  simp

theorem lastPart_of_not_mem {part : List Char} (h : '/' ∉ part) : lastPart part = part := by
  have hall : ∀ c ∈ part.reverse, (c != '/') = true := by
    intro c hc
    rw [bne_iff_ne]
    rintro rfl
    exact h (List.mem_reverse.mp hc)
  rw [lastPart, List.takeWhile_eq_self_iff.mpr hall, List.reverse_reverse]

/-- A path with a name at its end has nothing there that means nothing. -/
theorem trimEnd_of_name {head : Nat} {cs : List Char} (hne : lastPart (cs.drop head) ≠ [])
    (hdot : lastPart (cs.drop head) ≠ ['.']) : trimEnd head cs = cs := by
  unfold trimEnd
  split
  · rfl
  · exact if_neg (not_or.mpr ⟨hne, hdot⟩)

theorem drop_ofNames_concat (h : ∀ name ∈ names, IsName name) (hname : IsName name) :
    lastPart ((ofNames (names ++ [name])).text.toList.drop 1) = name.toList := by
  rw [toList_ofNames_concat h hname]
  obtain ⟨_, _, _, hslash⟩ := hname
  by_cases hnil : names = []
  · rw [if_pos hnil]
    exact lastPart_of_not_mem hslash
  · have habsolute := isAbsolute_ofNames h
    rw [if_neg hnil]
    cases hcs : (ofNames names).text.toList with
    | nil => simp [isAbsolute, hcs] at habsolute
    | cons c cs => exact lastPart_append_slash cs hslash

theorem trimEnd_ofNames (h : ∀ name ∈ names, IsName name) :
    trimEnd 1 (ofNames names).text.toList = (ofNames names).text.toList := by
  rcases List.eq_nil_or_concat names with rfl | ⟨init, last, rfl⟩
  · have hroot : (ofNames []).text.toList = ['/'] := by decide
    rw [hroot, trimEnd, if_pos (by decide)]
  · rw [List.concat_eq_append] at h ⊢
    have hlast := h last (List.mem_append_right _ (List.mem_singleton_self _))
    have hinit := fun name hname => h name (List.mem_append_left _ hname)
    have hpart := drop_ofNames_concat hinit hlast
    obtain ⟨hne, hdot, _, _⟩ := hlast
    exact trimEnd_of_name (hpart ▸ hne) (hpart ▸ hdot)

theorem headLength_of_isAbsolute {p : Path} (h : p.isAbsolute = true) :
    headLength p.text.toList = 1 := by
  obtain ⟨cs, hcs, -⟩ := exists_partsOf h
  rw [hcs]
  rfl

/-- **The directory of a path of names** passes all of them but the last one. -/
theorem parent?_ofNames (h : ∀ name ∈ names, IsName name) (hname : IsName name) :
    (ofNames (names ++ [name])).parent? = some (ofNames names) := by
  have hall := isName_concat h hname
  have hpart := drop_ofNames_concat h hname
  have htext := toList_ofNames_concat h hname
  have hne : 0 < name.toList.length := List.length_pos_iff.mpr hname.1
  have hlong : 1 < (ofNames (names ++ [name])).text.toList.length := by
    rw [htext, List.length_append, List.length_cons]
    omega
  have hdirectory : dropLastPart 1 (ofNames (names ++ [name])).text.toList =
      (ofNames names).text.toList := by
    unfold dropLastPart
    rw [hpart]
    simp only [htext]
    by_cases hnil : names = []
    · subst hnil
      have hroot : (ofNames []).text.toList = ['/'] := by decide
      simp [hroot]
    · have habsolute := isAbsolute_ofNames h
      rw [if_neg hnil]
      cases hcs : (ofNames names).text.toList with
      | nil => simp [isAbsolute, hcs] at habsolute
      | cons c cs =>
        have hmax : max 1 ((c :: cs ++ '/' :: name.toList).length - name.toList.length - 1) =
            (c :: cs).length := by
          simp only [List.length_append, List.length_cons]
          omega
        rw [hmax, List.take_left]
  unfold parent?
  simp only [headLength_of_isAbsolute (isAbsolute_ofNames hall), trimEnd_ofNames hall, if_pos hlong,
    hdirectory, trimEnd_ofNames h, String.ofList_toList]

theorem head?_dropLastPart {head : Nat} (h : 0 < head) (cs : List Char) :
    (dropLastPart head cs).head? = cs.head? := by
  rw [dropLastPart, List.head?_take, if_neg (by omega)]

/-- What is left of a text keeps the head of it. -/
theorem head?_trimEnd {head : Nat} (h : 0 < head) (cs : List Char) :
    (trimEnd head cs).head? = cs.head? := by
  induction cs using trimEnd.induct head with
  | case1 cs hle => rw [trimEnd, if_pos hle]
  | case2 cs hlt part hpart ih =>
    rw [trimEnd, if_neg hlt]
    simp only
    rw [if_pos hpart, ih, head?_dropLastPart h]
  | case3 cs hlt part hpart =>
    rw [trimEnd, if_neg hlt]
    simp only
    rw [if_neg hpart]

/-- The directory of an absolute path is absolute. -/
theorem isAbsolute_parent? {p directory : Path} (h : p.isAbsolute = true)
    (hparent : p.parent? = some directory) : directory.isAbsolute = true := by
  have hhead := headLength_of_isAbsolute h
  obtain ⟨cs, hcs, -⟩ := exists_partsOf h
  have hfirst : (trimEnd 1 p.text.toList).head? = some '/' := by
    rw [head?_trimEnd Nat.one_pos, hcs]
    rfl
  rw [parent?] at hparent
  simp only [hhead] at hparent
  split at hparent
  · obtain rfl := Option.some.inj hparent
    rw [isAbsolute, String.toList_ofList, head?_trimEnd Nat.one_pos, head?_dropLastPart Nat.one_pos,
      hfirst]
    rfl
  · rw [hfirst, if_neg (by decide)] at hparent
    contradiction

/-- The directories above an absolute path are absolute. -/
theorem isAbsolute_of_mem_ancestorsUpTo {fuel : Nat} {p q : Path} (h : p.isAbsolute = true)
    (hq : q ∈ ancestorsUpTo fuel p) : q.isAbsolute = true := by
  induction fuel generalizing p with
  | zero => exact List.mem_singleton.mp hq ▸ h
  | succ fuel ih =>
    rcases List.mem_cons.mp hq with rfl | hq
    · exact h
    · cases hparent : p.parent? with
      | none =>
        rw [hparent] at hq
        exact absurd hq List.not_mem_nil
      | some directory =>
        rw [hparent] at hq
        exact ih (isAbsolute_parent? h hparent) hq

end Path

end TypeScriptEngine
