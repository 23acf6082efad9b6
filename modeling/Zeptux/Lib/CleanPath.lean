import Zeptux.Lib.Text

/-!
A cleaned path stays as it is when it is cleaned again.
-/

namespace Strings

variable {sep : UInt8} {rooted : Bool}

theorem splitFrom_word {word : Text} (free : sep ∉ word) (part rest : Text) :
    splitFrom [sep] 0 part (word ++ rest) = splitFrom [sep] 0 (part ++ word) rest := by
  induction word generalizing part with
  | nil => simp
  | cons chr word ih =>
      have other : sep ≠ chr := fun same => free (by simp [same])
      rw [List.cons_append, splitFrom, if_neg (by simpa [hasPrefix] using other),
        ih (fun inside => free (by simp [inside]))]
      simp

theorem splitFrom_sep (part rest : Text) :
    splitFrom [sep] 0 part (sep :: rest) = part :: splitFrom [sep] 0 [] rest := by
  rw [splitFrom, if_pos (by simp [hasPrefix])]
  rfl

theorem split_join {parts : List Text} (free : ∀ part ∈ parts, sep ∉ part) (some : parts ≠ []) :
    split (join [sep] parts) [sep] = parts := by
  rw [split]
  induction parts with
  | nil => exact absurd rfl some
  | cons first parts ih =>
      have whole := splitFrom_word (free first (by simp)) []
      cases parts with
      | nil =>
          have last := whole []
          rw [List.append_nil] at last
          rw [join, List.intercalate_singleton, last]
          rfl
      | cons second parts =>
          rw [join, List.intercalate_cons_cons, List.append_assoc, whole, List.singleton_append,
            splitFrom_sep]
          exact congrArg (first :: ·) (ih (fun part inside => free part (by simp [inside])) nofun)

theorem splitFrom_free (part text : Text) (free : sep ∉ part) :
    ∀ piece ∈ splitFrom [sep] 0 part text, sep ∉ piece := by
  induction text generalizing part with
  | nil => simpa [splitFrom] using free
  | cons chr rest ih =>
      by_cases same : chr = sep
      · subst same
        rw [splitFrom_sep]
        simpa [free] using ih [] (by simp)
      · rw [splitFrom, if_neg (by simpa [hasPrefix] using Ne.symm same)]
        refine ih (part ++ [chr]) ?_
        simpa [free] using Ne.symm same

/-- The elements that `clean` keeps, innermost first: those that go up are the outermost. -/
def Cleaned (rooted : Bool) : List Text → Prop
  | [] => True
  | last :: outer =>
      last ≠ [] ∧ last ≠ lit "." ∧ slash ∉ last ∧
        (last = lit ".." → rooted = false ∧ ∀ element ∈ outer, element = lit "..") ∧
        Cleaned rooted outer

theorem Cleaned.plain {kept : List Text} (cleaned : Cleaned rooted kept) :
    ∀ element ∈ kept, element ≠ [] ∧ slash ∉ element := by
  induction kept with
  | nil => simp
  | cons last outer ih =>
      obtain ⟨some, -, free, -, rest⟩ := cleaned
      simpa [some, free] using ih rest

theorem Cleaned.element {kept : List Text} (cleaned : Cleaned rooted kept) {element : Text}
    (free : slash ∉ element) : Cleaned rooted (cleanElement rooted kept element) := by
  rw [cleanElement.eq_def]
  by_cases skipped : element = [] ∨ element = lit "."
  · rw [if_pos skipped]
    exact cleaned
  rw [if_neg skipped]
  by_cases up : element = lit ".."
  · rw [if_pos up]
    subst up
    cases kept with
    | nil =>
        cases rooted with
        | true => trivial
        | false => exact ⟨by decide, by decide, free, fun _ => ⟨rfl, by simp⟩, trivial⟩
    | cons last outer =>
        obtain ⟨some, other, plain, ups, rest⟩ := cleaned
        by_cases goes : last = lit ".."
        · simp only [goes, if_true]
          obtain ⟨loose, all⟩ := ups goes
          refine ⟨by decide, by decide, free, fun _ => ⟨loose, by simpa using all⟩, ?_⟩
          exact goes ▸ ⟨some, other, plain, ups, rest⟩
        · simp only [goes, if_false]
          exact rest
  · rw [if_neg up]
    exact ⟨fun empty => skipped (.inl empty), fun here => skipped (.inr here), free,
      fun goes => absurd goes up, cleaned⟩

theorem Cleaned.again {kept : List Text} (cleaned : Cleaned rooted kept) :
    kept.reverse.foldl (cleanElement rooted) [] = kept := by
  induction kept with
  | nil => rfl
  | cons last outer ih =>
      obtain ⟨some, other, -, ups, rest⟩ := cleaned
      rw [List.reverse_cons, List.foldl_append, ih rest, List.foldl_cons, List.foldl_nil,
        cleanElement.eq_def, if_neg (by simp [some, other])]
      by_cases goes : last = lit ".."
      · obtain ⟨loose, all⟩ := ups goes
        cases outer with
        | nil => simp [goes, loose]
        | cons next outer => simp [goes, all next (by simp)]
      · rw [if_neg goes]

theorem clean_cleaned (path : Text) : ∃ kept,
    Cleaned (hasPrefix path [slash]) kept ∧
      clean path =
        let cleaned := (if hasPrefix path [slash] then [slash] else []) ++ join [slash] kept.reverse
        if cleaned = [] then lit "." else cleaned := by
  refine ⟨_, ?_, rfl⟩
  have pieces : ∀ piece ∈ split path [slash], slash ∉ piece := splitFrom_free [] path (by simp)
  have start : Cleaned (hasPrefix path [slash]) [] := trivial
  generalize split path [slash] = elements at pieces
  generalize ([] : List Text) = kept at start
  induction elements generalizing kept with
  | nil => exact start
  | cons element elements ih =>
      exact ih (fun piece inside => pieces piece (by simp [inside])) _
        (start.element (pieces element (by simp)))

theorem clean_clean (path : Text) : clean (clean path) = clean path := by
  obtain ⟨kept, cleaned, same⟩ := clean_cleaned path
  generalize hasPrefix path [slash] = rooted at cleaned same
  have free : ∀ part ∈ kept.reverse, slash ∉ part :=
    fun part inside => (cleaned.plain part (List.mem_reverse.mp inside)).2
  have again := cleaned.again
  rw [same]
  cases rooted with
  | true =>
      have starts (text : Text) : hasPrefix (slash :: text) [slash] = true := by simp [hasPrefix]
      simp only [if_true, List.singleton_append, List.cons_ne_nil, if_false]
      rw [clean, starts]
      have pieces : (split (slash :: join [slash] kept.reverse) [slash]).foldl (cleanElement true) [] =
          kept := by
        rw [split, splitFrom_sep, List.foldl_cons]
        by_cases none : kept = []
        · subst none
          rfl
        · have parts := split_join free (by simpa using none)
          rw [split] at parts
          rw [parts]
          exact again
      simp only [pieces, if_true, List.singleton_append, List.cons_ne_nil, if_false]
  | false =>
      by_cases none : kept = []
      · subst none
        decide
      · have parts := split_join free (by simpa using none)
        have filled : [] ∉ split (join [slash] kept.reverse) [slash] := by
          rw [parts]
          exact fun inside => (cleaned.plain [] (List.mem_reverse.mp inside)).1 rfl
        have some : join [slash] kept.reverse ≠ [] := by
          intro empty
          rw [empty] at filled
          exact filled (by decide)
        have loose : hasPrefix (join [slash] kept.reverse) [slash] = false := by
          rw [Bool.eq_false_iff]
          intro starts
          obtain ⟨rest, split⟩ := List.isPrefixOf_iff_prefix.mp starts
          rw [← split, List.singleton_append, Strings.split, splitFrom_sep] at filled
          exact filled List.mem_cons_self
        simp only [Bool.false_eq_true, if_false, List.nil_append, some]
        rw [clean, loose]
        simp only [parts, again, Bool.false_eq_true, if_false, List.nil_append, some]

theorem clean_ne_nil (path : Text) : clean path ≠ [] := by
  have filled (cleaned : Text) : (if cleaned = [] then lit "." else cleaned) ≠ [] := by
    split_ifs with empty
    · decide
    · exact empty
  exact filled _

/-- A joined path is relative to nothing but itself. -/
theorem joinPath_joinPath (dir name : Text) : joinPath [] (joinPath dir name) = joinPath dir name := by
  have again (path : Text) : joinPath [] (clean path) = clean path := by
    rw [joinPath, if_pos rfl, if_neg (clean_ne_nil path), clean_clean]
  rw [joinPath.eq_def dir name]
  split_ifs
  · rfl
  · exact again name
  · exact again _

end Strings
