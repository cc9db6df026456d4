import Pinhead.ByteStrings

/-!
# Lines and words of a text

A text is cut into lines at its newlines and into words at its whitespace. The two
cuts agree: the words of a text are those of its lines one after another, and trimming
a line does not change its words. A text that is one word is cut into itself. Every word
is a part of its text, as is what a search finds.
-/
namespace Pinhead.TextWords
open ByteStrings

variable {w cs ds : List Char} {c : Char}

/-! ## Words -/

def Blank (cs : List Char) : Prop := ∀ c ∈ cs, isWhitespace c = true

def Solid (cs : List Char) : Prop := ∀ c ∈ cs, isWhitespace c = false

theorem solid_of_all {cs : List Char} (h : (cs.all fun c => !isWhitespace c) = true) :
    Solid cs := by
  intro c hc
  simpa using List.all_eq_true.mp h c hc

theorem cutWords_space (h : isWhitespace c = true) :
    cutWords w (cs ++ c :: ds) = cutWords w cs ++ cutWords [] ds := by
  induction cs generalizing w with
  | nil =>
      simp only [List.nil_append, cutWords, if_pos h]
      split <;> rfl
  | cons d cs ih =>
      rw [List.cons_append, cutWords, cutWords]
      split
      · split
        · exact ih
        · rw [ih, List.cons_append]
      · exact ih

theorem cutWords_blank_right (h : Blank ds) : cutWords w (cs ++ ds) = cutWords w cs := by
  induction ds with
  | nil => rw [List.append_nil]
  | cons d ds ih =>
      obtain ⟨hd, hds⟩ := List.forall_mem_cons.mp h
      have hnil : cutWords [] ds = [] := by
        clear ih h
        induction ds with
        | nil => rfl
        | cons e ds ih =>
            obtain ⟨he, hds⟩ := List.forall_mem_cons.mp hds
            rw [cutWords, if_pos he, if_pos rfl]
            exact ih hds
      rw [cutWords_space hd, hnil, List.append_nil]

theorem cutWords_blank_left (h : Blank cs) : cutWords [] (cs ++ ds) = cutWords [] ds := by
  induction cs with
  | nil => rfl
  | cons c cs ih =>
      obtain ⟨hc, hcs⟩ := List.forall_mem_cons.mp h
      rw [List.cons_append, cutWords, if_pos hc, if_pos rfl]
      exact ih hcs

/-- The current word grows over what holds no whitespace. -/
theorem cutWords_solid (h : Solid cs) : cutWords w (cs ++ ds) = cutWords (cs.reverse ++ w) ds := by
  induction cs generalizing w with
  | nil => rfl
  | cons c cs ih =>
      obtain ⟨hc, hcs⟩ := List.forall_mem_cons.mp h
      rw [List.cons_append, cutWords, if_neg (by simp [hc]), ih hcs]
      simp

theorem cutWords_word (h : Solid cs) (hne : cs ≠ []) : cutWords [] cs = [cs] := by
  have hcut : cutWords [] (cs ++ []) = cutWords (cs.reverse ++ []) [] := cutWords_solid h
  rw [List.append_nil, List.append_nil] at hcut
  rw [hcut, cutWords, if_neg (by simpa using hne), List.reverse_reverse]

/-- Words are not empty and hold no whitespace. -/
theorem word_of_mem (hw : Solid w) {x : List Char} (hx : x ∈ cutWords w cs) :
    x ≠ [] ∧ Solid x := by
  have hrev : Solid w.reverse := fun c hc => hw c (List.mem_reverse.mp hc)
  induction cs generalizing w with
  | nil =>
      rw [cutWords] at hx
      split at hx
      · cases hx
      · next hne =>
          rw [List.mem_singleton.mp hx]
          exact ⟨by simpa using hne, hrev⟩
  | cons c cs ih =>
      have hnil : Solid [] := nofun
      rw [cutWords] at hx
      split at hx
      · split at hx
        · exact ih hnil hx hnil
        · next hne =>
            rcases List.mem_cons.mp hx with rfl | hx
            · exact ⟨by simpa using hne, hrev⟩
            · exact ih hnil hx hnil
      · next hc =>
          have hcons : Solid (c :: w) := List.forall_mem_cons.mpr ⟨by simpa using hc, hw⟩
          exact ih hcons hx fun d hd => hcons d (List.mem_reverse.mp hd)

/-- A word is a part of the text. -/
theorem infix_of_mem {x : List Char} (hx : x ∈ cutWords w cs) : x <:+: w.reverse ++ cs := by
  induction cs generalizing w with
  | nil =>
      rw [cutWords] at hx
      split at hx
      · cases hx
      · rw [List.mem_singleton.mp hx, List.append_nil]
  | cons c cs ih =>
      have hlater (h : x ∈ cutWords [] cs) : x <:+: w.reverse ++ c :: cs := by
        apply (ih h).trans
        rw [List.append_cons]
        exact (List.suffix_append _ _).isInfix
      rw [cutWords] at hx
      split at hx
      · split at hx
        · exact hlater hx
        · rcases List.mem_cons.mp hx with rfl | hx
          · exact (List.prefix_append _ _).isInfix
          · exact hlater hx
      · have hword := ih hx
        rwa [List.reverse_cons, List.append_assoc, List.singleton_append] at hword

/-- No character but whitespace is lost. -/
theorem mem_word (hc : isWhitespace c = false) (h : c ∈ w ∨ c ∈ cs) :
    ∃ x ∈ cutWords w cs, c ∈ x := by
  induction cs generalizing w with
  | nil =>
      have hmem : c ∈ w := h.resolve_right (List.not_mem_nil)
      have hne : w ≠ [] := List.ne_nil_of_mem hmem
      rw [cutWords, if_neg hne]
      exact ⟨w.reverse, List.mem_singleton_self _, List.mem_reverse.mpr hmem⟩
  | cons d cs ih =>
      rw [cutWords]
      split
      · next hd =>
          have hrest : c ∈ w ∨ c ∈ cs := by
            rcases h with h | h
            · exact Or.inl h
            · rcases List.mem_cons.mp h with rfl | h
              · rw [hc] at hd
                cases hd
              · exact Or.inr h
          split
          · next hnil =>
              subst hnil
              exact ih hrest
          · rcases hrest with h | h
            · exact ⟨w.reverse, List.mem_cons_self .., List.mem_reverse.mpr h⟩
            · obtain ⟨x, hx, hcx⟩ := ih (w := []) (Or.inr h)
              exact ⟨x, List.mem_cons_of_mem _ hx, hcx⟩
      · apply ih
        rcases h with h | h
        · exact Or.inl (List.mem_cons_of_mem _ h)
        · rcases List.mem_cons.mp h with rfl | h
          · exact Or.inl (List.mem_cons_self ..)
          · exact Or.inr h

/-! ## Lines -/

/-- The words of a text are the words of its lines. -/
theorem cutWords_lines (line cs : List Char) :
    cutWords [] (line.reverse ++ cs) = (cutLines line cs).flatMap (cutWords []) := by
  induction cs generalizing line with
  | nil =>
      rw [List.append_nil, cutLines]
      split
      · next hnil =>
          subst hnil
          rfl
      · simp
  | cons c cs ih =>
      have hnewline : isWhitespace '\n' = true := by decide
      have hreturn : isWhitespace '\r' = true := by decide
      rw [cutLines]
      split
      · next hc =>
          subst hc
          have hrest := ih []
          rw [List.reverse_nil, List.nil_append] at hrest
          rw [cutWords_space hnewline, hrest, List.flatMap_cons]
          congr 1
          split
          · next hhead =>
              cases line with
              | nil => cases hhead
              | cons d line =>
                  obtain rfl := Option.some.inj hhead
                  rw [List.reverse_cons, List.tail_cons]
                  exact cutWords_blank_right (by simpa [Blank] using hreturn)
          · rfl
      · rw [← ih, List.reverse_cons, List.append_assoc, List.singleton_append]

theorem splitWhitespace_lines (s : String) :
    splitWhitespace s = (lines s).flatMap splitWhitespace := by
  have hcut := cutWords_lines [] s.toList
  rw [List.reverse_nil, List.nil_append] at hcut
  rw [splitWhitespace, hcut, lines, List.map_flatMap, List.flatMap_map]
  congr 1
  funext line
  rw [splitWhitespace, String.toList_ofList]

/-! ## Trimming -/

/-- What is trimmed off is blank, on both sides. -/
theorem trim_spec (s : String) :
    ∃ before after, s.toList = before ++ ((trim s).toList ++ after) ∧ Blank before ∧ Blank after := by
  have hblank : ∀ l : List Char, Blank (l.takeWhile isWhitespace) :=
    fun l c hc => List.all_eq_true.mp List.all_takeWhile c hc
  let inner := s.toList.dropWhile isWhitespace
  refine ⟨s.toList.takeWhile isWhitespace, (inner.reverse.takeWhile isWhitespace).reverse, ?_,
    hblank _, fun c hc => hblank _ c (List.mem_reverse.mp hc)⟩
  rw [trim, String.toList_ofList, ← List.reverse_append, List.takeWhile_append_dropWhile,
    List.reverse_reverse, List.takeWhile_append_dropWhile]

theorem splitWhitespace_trim (s : String) : splitWhitespace (trim s) = splitWhitespace s := by
  obtain ⟨before, after, hs, hbefore, hafter⟩ := trim_spec s
  rw [splitWhitespace, splitWhitespace, hs, cutWords_blank_left hbefore, cutWords_blank_right hafter]

theorem trim_solid {s : String} (h : Solid s.toList) : trim s = s := by
  obtain ⟨before, after, hs, hbefore, hafter⟩ := trim_spec s
  have hnil : ∀ l : List Char, Blank l → (∀ c ∈ l, c ∈ s.toList) → l = [] := by
    intro l hblank hmem
    cases l with
    | nil => rfl
    | cons c l =>
        have hc := hblank c (List.mem_cons_self ..)
        rw [h c (hmem c (List.mem_cons_self ..))] at hc
        cases hc
  have hb : before = [] := hnil _ hbefore fun c hc => by simp [hs, hc]
  have ha : after = [] := hnil _ hafter fun c hc => by simp [hs, hc]
  rw [hb, ha, List.nil_append, List.append_nil] at hs
  exact (String.toList_inj.mp hs).symm

theorem trim_blank {s : String} (h : Blank s.toList) : trim s = "" := by
  have hdrop : (s.toList ++ []).dropWhile isWhitespace = [] := List.dropWhile_append_of_pos h
  rw [List.append_nil] at hdrop
  rw [trim, hdrop]
  rfl

/-- What follows the blanks in front is where the trimmed text begins. -/
theorem trim_head {s : String} {before rest : List Char} (hs : s.toList = before ++ c :: rest)
    (hbefore : Blank before) (hc : isWhitespace c = false) : (trim s).toList.head? = some c := by
  have hdrop : s.toList.dropWhile isWhitespace = c :: rest := by
    rw [hs, List.dropWhile_append_of_pos hbefore, List.dropWhile_cons_of_neg (by simp [hc])]
  have hlast : (c :: rest).reverse.dropWhile isWhitespace =
      (rest.reverse.dropWhile isWhitespace) ++ [c] := by
    rw [List.reverse_cons, List.dropWhile_append]
    split
    · next hempty => rw [List.isEmpty_iff.mp hempty, List.dropWhile_cons_of_neg (by simp [hc])]; rfl
    · rfl
  rw [trim, hdrop, hlast, String.toList_ofList, List.reverse_append]
  rfl

theorem trimEndMatches_spec (c : Char) (s : String) :
    ∃ after, s.toList = (trimEndMatches c s).toList ++ after ∧ ∀ d ∈ after, d = c := by
  refine ⟨(s.toList.reverse.takeWhile (· = c)).reverse, ?_, ?_⟩
  · rw [trimEndMatches, String.toList_ofList, ← List.reverse_append, List.takeWhile_append_dropWhile,
      List.reverse_reverse]
  · intro d hd
    have hall := List.all_eq_true.mp List.all_takeWhile d (List.mem_reverse.mp hd)
    simpa using hall

theorem trimEndMatches_last (c : Char) (s : String) :
    (trimEndMatches c s).toList.getLast? ≠ some c := by
  intro hlast
  rw [trimEndMatches, String.toList_ofList, List.getLast?_reverse] at hlast
  have hhead := List.head?_dropWhile_not (· = c) s.toList.reverse
  rw [hlast] at hhead
  simp at hhead

/-- Nothing is trimmed exactly if the text does not end with the character. -/
theorem trimEndMatches_eq_iff (c : Char) (s : String) :
    trimEndMatches c s = s ↔ s.toList.getLast? ≠ some c := by
  rw [← String.toList_inj, trimEndMatches, String.toList_ofList, List.reverse_eq_iff,
    ← List.head?_reverse]
  cases s.toList.reverse with
  | nil => simp
  | cons d ds =>
      by_cases hd : d = c
      · have hlen := (List.dropWhile_sublist (· = c) (l := ds)).length_le
        simp only [hd, List.dropWhile_cons, decide_true, if_pos, List.head?_cons, ne_eq,
          not_true_eq_false, iff_false]
        intro heq
        rw [heq, List.length_cons] at hlen
        omega
      · simp [hd]

/-! ## Texts that are one word -/

theorem splitWhitespace_word {s : String} (h : Solid s.toList) (hne : s ≠ "") :
    splitWhitespace s = [s] := by
  have hchars : s.toList ≠ [] := fun hnil => hne (String.toList_inj.mp hnil)
  rw [splitWhitespace, cutWords_word h hchars, List.map_singleton, String.ofList_toList]

/-- A word and a blank in front of a text add the word. -/
theorem splitWhitespace_cons {s rest : String} (h : Solid s.toList) (hne : s ≠ "") :
    splitWhitespace (s ++ " " ++ rest) = s :: splitWhitespace rest := by
  have hchars : s.toList ≠ [] := fun hnil => hne (String.toList_inj.mp hnil)
  have htext : (s ++ " " ++ rest).toList = s.toList ++ ' ' :: rest.toList := by
    rw [String.toList_append, String.toList_append, List.append_assoc]
    rfl
  have hblank : isWhitespace ' ' = true := by decide
  rw [splitWhitespace, htext, cutWords_space hblank, cutWords_word h hchars, List.map_append,
    List.map_singleton, String.ofList_toList]
  rfl

theorem mem_splitWhitespace {s x : String} (h : x ∈ splitWhitespace s) :
    x ≠ "" ∧ Solid x.toList := by
  obtain ⟨cs, hcs, rfl⟩ := List.mem_map.mp h
  have hnil : Solid [] := nofun
  obtain ⟨hne, hsolid⟩ := word_of_mem hnil hcs
  rw [String.toList_ofList]
  refine ⟨fun hempty => hne ?_, hsolid⟩
  rw [← String.toList_ofList (l := cs), hempty]
  rfl

theorem infix_of_mem_words {s x : String} (h : x ∈ splitWhitespace s) : x.toList <:+: s.toList := by
  obtain ⟨cs, hcs, rfl⟩ := List.mem_map.mp h
  rw [String.toList_ofList]
  exact infix_of_mem hcs

theorem mem_word_of_mem {s : String} {c : Char} (hc : isWhitespace c = false) (h : c ∈ s.toList) :
    ∃ x ∈ splitWhitespace s, c ∈ x.toList := by
  obtain ⟨x, hx, hcx⟩ := mem_word (w := []) hc (Or.inr h)
  exact ⟨String.ofList x, List.mem_map_of_mem hx, by rwa [String.toList_ofList]⟩

/-! ## Searching -/

theorem afterFirst_isSome (needle : List Char) :
    (afterFirst needle cs).isSome = true ↔ needle <:+: cs := by
  induction cs with
  | nil =>
      rw [afterFirst, List.infix_nil]
      split <;> simp_all
  | cons c cs ih =>
      rw [afterFirst, List.infix_cons_iff]
      split
      · next h => simpa using Or.inl (List.isPrefixOf_iff_prefix.mp h)
      · next h =>
          rw [ih]
          have hstart : ¬ needle <+: c :: cs := fun hp => h (List.isPrefixOf_iff_prefix.mpr hp)
          exact (or_iff_right hstart).symm

theorem containsText_iff (s needle : String) :
    containsText s needle = true ↔ needle.toList <:+: s.toList :=
  afterFirst_isSome _

/-! ## Joining -/

/-- Texts without the character between them can be told apart again, if none is empty. -/
theorem intercalate_injective {sep : String} {c : Char} (hsep : sep.toList = [c])
    {xs ys : List String} (hxs : ∀ x ∈ xs, x ≠ "" ∧ c ∉ x.toList)
    (hys : ∀ y ∈ ys, y ≠ "" ∧ c ∉ y.toList) (h : sep.intercalate xs = sep.intercalate ys) :
    xs = ys := by
  have hcut : ∀ zs : List String, zs ≠ [] → (∀ z ∈ zs, z ≠ "" ∧ c ∉ z.toList) →
      (sep.intercalate zs).toList.splitOn c = zs.map String.toList := by
    intro zs hne hzs
    rw [String.toList_intercalate, hsep]
    apply List.splitOn_intercalate c ?_ (by simpa using hne)
    intro l hl
    obtain ⟨z, hz, rfl⟩ := List.mem_map.mp hl
    exact (hzs z hz).2
  have hempty : ∀ zs : List String, zs ≠ [] → (∀ z ∈ zs, z ≠ "" ∧ c ∉ z.toList) →
      sep.intercalate zs ≠ "" := by
    intro zs hne hzs hnil
    have hz := hcut zs hne hzs
    have hone : [] ∈ zs.map String.toList := by
      rw [← hz, hnil]
      simp
    obtain ⟨z, hz, hnil⟩ := List.mem_map.mp hone
    exact (hzs z hz).1 (String.toList_inj.mp hnil)
  by_cases hx : xs = []
  · by_cases hy : ys = []
    · rw [hx, hy]
    · rw [hx, String.intercalate_nil] at h
      exact absurd h.symm (hempty ys hy hys)
  · by_cases hy : ys = []
    · rw [hy, String.intercalate_nil] at h
      exact absurd h (hempty xs hx hxs)
    · have hmap : xs.map String.toList = ys.map String.toList := by
        rw [← hcut xs hx hxs, ← hcut ys hy hys, h]
      exact List.map_injective_iff.mpr (fun _ _ => String.toList_inj.mp) hmap

end Pinhead.TextWords
