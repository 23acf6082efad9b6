import Zeptux.Lib.Text

/-!
The fields of a text. A space is the encoding of a code point, so it can take several bytes; no
byte that starts a space occurs inside one, and what is read of a text does not depend on what
follows it, as long as that does not continue a space.
-/

namespace Strings

def InnerByte (chr : UInt8) : Prop := ∃ space ∈ spaces, chr ∈ space.tail

theorem spaces_nonempty {space : Text} (listed : space ∈ spaces) : space ≠ [] := by
  have check : spaces.all (fun space => !space.isEmpty) = true := by decide
  simpa using List.all_eq_true.mp check space listed

theorem head_not_inner {space : Text} {chr : UInt8} (listed : space ∈ spaces)
    (first : space.head? = some chr) : ¬InnerByte chr := by
  rintro ⟨other, otherListed, inside⟩
  have check : spaces.all (fun space => spaces.all fun other => other.tail.all fun chr =>
      space.head? != some chr) = true := by decide +kernel
  have apart := List.all_eq_true.mp (List.all_eq_true.mp (List.all_eq_true.mp check space listed)
    other otherListed) chr inside
  simp [first] at apart

theorem spaces_apart {left right : Text} (leftListed : left ∈ spaces)
    (rightListed : right ∈ spaces) (starts : left <+: right) : left = right := by
  have check : spaces.all (fun left => spaces.all fun right =>
      !left.isPrefixOf right || left == right) = true := by decide +kernel
  have apart := List.all_eq_true.mp (List.all_eq_true.mp check left leftListed) right rightListed
  simpa [List.isPrefixOf_iff_prefix.mpr starts] using apart

theorem spaceLength_none {str : Text} :
    spaceLength str = none ↔ ∀ space ∈ spaces, ¬space <+: str := by
  simp [spaceLength, hasPrefix, List.isPrefixOf_iff_prefix]

theorem spaceLength_some {str : Text} {length : Nat} (found : spaceLength str = some length) :
    ∃ space ∈ spaces, ∃ rest, str = space ++ rest ∧ length = space.length := by
  obtain ⟨space, search, rfl⟩ := Option.map_eq_some_iff.mp found
  have starts : hasPrefix str space = true := List.find?_some search
  obtain ⟨rest, rfl⟩ := List.isPrefixOf_iff_prefix.mp starts
  exact ⟨space, List.mem_of_find?_eq_some search, rest, rfl, rfl⟩

theorem spaceLength_space {space : Text} (listed : space ∈ spaces) (rest : Text) :
    spaceLength (space ++ rest) = some space.length := by
  cases found : spaceLength (space ++ rest) with
  | none => exact absurd (List.prefix_append space rest) (spaceLength_none.mp found space listed)
  | some length =>
      obtain ⟨other, otherListed, tail, same, rfl⟩ := spaceLength_some found
      have starts : other <+: space ++ rest := ⟨tail, same.symm⟩
      rcases List.prefix_or_prefix_of_prefix starts (List.prefix_append space rest) with before | after
      · rw [spaces_apart otherListed listed before]
      · rw [spaces_apart listed otherListed after]

/-- The text does not continue a space that another text may end with. -/
def Separate (text : Text) : Prop := ∀ chr ∈ text.head?, ¬InnerByte chr

theorem separate_space {space : Text} (listed : space ∈ spaces) (rest : Text) :
    Separate (space ++ rest) := by
  intro chr first
  cases space with
  | nil => exact absurd rfl (spaces_nonempty listed)
  | cons head tail => exact head_not_inner listed first

theorem spaceLength_append {text after : Text} (nonempty : text ≠ []) (separate : Separate after)
    (plain : spaceLength text = none) : spaceLength (text ++ after) = none := by
  rw [spaceLength_none] at plain ⊢
  intro space listed starts
  rcases List.prefix_or_prefix_of_prefix starts (List.prefix_append text after) with inside | beyond
  · exact plain space listed inside
  · obtain ⟨tail, rfl⟩ := beyond
    have rest : tail <+: after := (List.prefix_append_right_inj text).mp starts
    cases tail with
    | nil => exact plain _ listed (by simp)
    | cons chr tail =>
        obtain ⟨last, rfl⟩ := rest
        refine separate chr rfl ⟨text ++ chr :: tail, listed, ?_⟩
        cases text with
        | nil => exact absurd rfl nonempty
        | cons first text => simp

theorem spaceLength_shorten {text after : Text} (plain : spaceLength (text ++ after) = none) :
    spaceLength text = none := by
  rw [spaceLength_none] at plain ⊢
  intro space listed starts
  exact plain space listed (starts.trans (List.prefix_append text after))

theorem text_induction {motive : Text → Prop} (nil : motive [])
    (gap : ∀ space ∈ spaces, ∀ rest, motive rest → motive (space ++ rest))
    (byte : ∀ chr rest, spaceLength (chr :: rest) = none → motive rest → motive (chr :: rest))
    (text : Text) : motive text := by
  induction length : text.length using Nat.strongRecOn generalizing text with
  | ind size ih =>
      cases text with
      | nil => exact nil
      | cons chr rest =>
          cases found : spaceLength (chr :: rest) with
          | none =>
              refine byte chr rest found (ih rest.length ?_ rest rfl)
              rw [← length]
              simp
          | some taken =>
              obtain ⟨space, listed, tail, same, _⟩ := spaceLength_some found
              have positive := List.length_pos_iff.mpr (spaces_nonempty listed)
              rw [same] at length ⊢
              refine gap space listed tail (ih tail.length ?_ tail rfl)
              rw [← length, List.length_append]
              omega

/-! ## Fields -/

theorem fieldsFrom_skip (field : Text) (skip : Nat) (text : Text) :
    fieldsFrom skip field text = fieldsFrom 0 field (text.drop skip) := by
  induction text generalizing skip with
  | nil => cases skip <;> rfl
  | cons chr rest ih =>
      cases skip with
      | zero => rfl
      | succ skip => exact ih skip

theorem fieldsFrom_nil (field : Text) :
    fieldsFrom 0 field [] = if field = [] then [] else [field] := rfl

theorem fieldsFrom_byte {chr : UInt8} {rest : Text} (plain : spaceLength (chr :: rest) = none)
    (field : Text) : fieldsFrom 0 field (chr :: rest) = fieldsFrom 0 (field ++ [chr]) rest := by
  rw [fieldsFrom, plain]

theorem fieldsFrom_space {space : Text} (listed : space ∈ spaces) (field rest : Text) :
    fieldsFrom 0 field (space ++ rest) = fieldsFrom 0 field [] ++ fieldsFrom 0 [] rest := by
  have length := spaceLength_space listed rest
  cases space with
  | nil => exact absurd rfl (spaces_nonempty listed)
  | cons chr tail =>
      rw [List.cons_append] at length ⊢
      rw [fieldsFrom_nil, fieldsFrom, length]
      simp only [List.length_cons, Nat.add_sub_cancel]
      rw [fieldsFrom_skip, List.drop_left]
      split <;> rfl

theorem fieldsFrom_gap {space : Text} (listed : space ∈ spaces) (rest : Text) :
    ∀ text field, fieldsFrom 0 field (text ++ (space ++ rest)) =
      fieldsFrom 0 field text ++ fieldsFrom 0 [] rest := by
  intro text
  induction text using text_induction with
  | nil =>
      intro field
      exact fieldsFrom_space listed field rest
  | gap other otherListed text ih =>
      intro field
      rw [List.append_assoc, fieldsFrom_space otherListed, ih, fieldsFrom_space otherListed,
        List.append_assoc]
  | byte chr text plain ih =>
      intro field
      have still := spaceLength_append (List.cons_ne_nil chr text) (separate_space listed rest) plain
      rw [List.cons_append] at still ⊢
      rw [fieldsFrom_byte still, fieldsFrom_byte plain, ih]

theorem fields_gap {space : Text} (listed : space ∈ spaces) (text rest : Text) :
    fields (text ++ (space ++ rest)) = fields text ++ fields rest := fieldsFrom_gap listed rest text []

theorem blank_listed : lit " " ∈ spaces := by decide

theorem fields_blank (text rest : Text) :
    fields (text ++ lit " " ++ rest) = fields text ++ fields rest := by
  rw [List.append_assoc]
  exact fields_gap blank_listed text rest

/-! ## Words -/

def Solid (text : Text) : Prop := ∀ front back, text = front ++ back → back ≠ [] →
  spaceLength back = none

theorem Solid.tail {chr : UInt8} {rest : Text} (solid : Solid (chr :: rest)) : Solid rest := by
  intro front back split
  exact solid (chr :: front) back (by rw [split]; rfl)

theorem Solid.cons {chr : UInt8} {rest : Text} (plain : ∀ space ∈ spaces, space.head? ≠ some chr)
    (solid : Solid rest) : Solid (chr :: rest) := by
  intro front back split nonempty
  cases front with
  | nil =>
      subst split
      rw [spaceLength_none]
      rintro space listed ⟨tail, same⟩
      cases space with
      | nil => exact spaces_nonempty listed rfl
      | cons first space =>
          cases same
          exact plain _ listed rfl
  | cons first front =>
      obtain ⟨rfl, rest⟩ := List.cons.inj split
      exact solid front back rest nonempty

theorem Solid.nil : Solid [] := by
  intro front back split nonempty
  exact absurd (List.append_eq_nil_iff.mp split.symm).2 nonempty

theorem Solid.of_bytes {text rest : Text}
    (plain : ∀ chr ∈ text, ∀ space ∈ spaces, space.head? ≠ some chr) (solid : Solid rest) :
    Solid (text ++ rest) := by
  induction text with
  | nil => exact solid
  | cons chr text ih =>
      exact (ih fun other inside => plain other (List.mem_cons_of_mem _ inside)).cons
        (plain chr List.mem_cons_self)

theorem fieldsFrom_solid {text : Text} (solid : Solid text) (field : Text) :
    fieldsFrom 0 field text = if field ++ text = [] then [] else [field ++ text] := by
  induction text generalizing field with
  | nil =>
      rw [List.append_nil]
      rfl
  | cons chr rest ih =>
      rw [fieldsFrom_byte (solid [] (chr :: rest) rfl (List.cons_ne_nil _ _)), ih solid.tail]
      simp

theorem fields_solid {text : Text} (solid : Solid text) (nonempty : text ≠ []) :
    fields text = [text] := by
  rw [fields, fieldsFrom_solid solid, List.nil_append, if_neg nonempty]

theorem fieldsFrom_words : ∀ text field,
    (∀ front back, field = front ++ back → back ≠ [] → spaceLength (back ++ text) = none) →
      ∀ word ∈ fieldsFrom 0 field text, Solid word ∧ word ≠ [] := by
  have whole : ∀ {field text : Text},
      (∀ front back, field = front ++ back → back ≠ [] → spaceLength (back ++ text) = none) →
        ∀ word ∈ fieldsFrom 0 field [], Solid word ∧ word ≠ [] := by
    intro field text solid word member
    rw [fieldsFrom_nil] at member
    split_ifs at member with empty
    · cases member
    · rw [List.mem_singleton.mp member]
      exact ⟨fun front back split nonempty => spaceLength_shorten (solid front back split nonempty),
        empty⟩
  intro text
  induction text using text_induction with
  | nil =>
      intro field solid
      exact whole solid
  | gap space listed text ih =>
      intro field solid word member
      rw [fieldsFrom_space listed, List.mem_append] at member
      rcases member with own | later
      · exact whole solid word own
      · refine ih [] ?_ word later
        intro front back split nonempty
        exact absurd (List.append_eq_nil_iff.mp split.symm).2 nonempty
  | byte chr text plain ih =>
      intro field solid word member
      rw [fieldsFrom_byte plain] at member
      refine ih (field ++ [chr]) ?_ word member
      intro front back split nonempty
      rcases List.eq_nil_or_concat back with rfl | ⟨back, last, rfl⟩
      · exact absurd rfl nonempty
      · rw [List.concat_eq_append, ← List.append_assoc] at split
        obtain ⟨parts, same⟩ := List.append_inj' split rfl
        obtain rfl := List.singleton_inj.mp same
        rw [List.concat_eq_append, List.append_assoc, List.singleton_append]
        cases back with
        | nil => exact plain
        | cons first back => exact solid front (first :: back) parts (List.cons_ne_nil _ _)

theorem fields_words {text word : Text} (member : word ∈ fields text) : Solid word ∧ word ≠ [] := by
  refine fieldsFrom_words text [] ?_ word member
  intro front back split nonempty
  exact absurd (List.append_eq_nil_iff.mp split.symm).2 nonempty

theorem fields_join {words : List Text} (solid : ∀ word ∈ words, Solid word ∧ word ≠ []) :
    fields (join (lit " ") words) = words := by
  induction words with
  | nil => rfl
  | cons word words ih =>
      have first := fields_solid (solid word List.mem_cons_self).1 (solid word List.mem_cons_self).2
      have later := ih fun other member => solid other (List.mem_cons_of_mem _ member)
      cases words with
      | nil =>
          rw [join, List.intercalate_singleton]
          exact first
      | cons next words =>
          have split : join (lit " ") (word :: next :: words) =
              word ++ lit " " ++ join (lit " ") (next :: words) := by
            simp [join, List.intercalate, List.intersperse]
          rw [split, fields_blank, first, later]
          rfl

/-! ## Trimming -/

theorem trimLeft_skip (skip : Nat) (text : Text) : trimLeft skip text = trimLeft 0 (text.drop skip) := by
  induction text generalizing skip with
  | nil => cases skip <;> rfl
  | cons chr rest ih =>
      cases skip with
      | zero => rfl
      | succ skip => exact ih skip

theorem fields_trimLeft (text : Text) : fields (trimLeft 0 text) = fields text := by
  induction text using text_induction with
  | nil => rfl
  | gap space listed rest ih =>
      have length := spaceLength_space listed rest
      have before := fields_gap listed [] rest
      rw [List.nil_append] at before
      rw [before]
      cases space with
      | nil => exact absurd rfl (spaces_nonempty listed)
      | cons chr tail =>
          rw [List.cons_append] at length ⊢
          rw [trimLeft, length]
          simp only [List.length_cons, Nat.add_sub_cancel]
          rw [trimLeft_skip, List.drop_left, ih]
          rfl
  | byte chr rest plain ih => rw [trimLeft, plain]

def trimRight (text : Text) : Text := (trimRightReversed 0 text.reverse).reverse

theorem trimRightReversed_skip (skip : Nat) (text : Text) :
    trimRightReversed skip text = trimRightReversed 0 (text.drop skip) := by
  induction text generalizing skip with
  | nil => cases skip <;> rfl
  | cons chr rest ih =>
      cases skip with
      | zero => rfl
      | succ skip => exact ih skip

def Ends (text : Text) : Prop := ∀ space ∈ spaces, ¬space <:+ text

theorem spaceLengthReversed_some {str : Text} {length : Nat}
    (found : spaceLengthReversed str = some length) :
    ∃ space ∈ spaces, ∃ rest, str = space.reverse ++ rest ∧ length = space.length := by
  obtain ⟨space, search, rfl⟩ := Option.map_eq_some_iff.mp found
  have starts := List.find?_some search
  obtain ⟨rest, rfl⟩ := List.isPrefixOf_iff_prefix.mp starts
  exact ⟨space, List.mem_of_find?_eq_some search, rest, rfl, rfl⟩

theorem trimRight_cases (text : Text) :
    trimRight text = text ∧ Ends text ∨
      ∃ rest, ∃ space ∈ spaces, text = rest ++ space ∧ trimRight text = trimRight rest := by
  obtain ⟨back, rfl⟩ : ∃ back : Text, text = back.reverse := ⟨text.reverse, by simp⟩
  rw [trimRight, List.reverse_reverse]
  cases back with
  | nil =>
      refine .inl ⟨rfl, fun space listed ends => ?_⟩
      exact spaces_nonempty listed (List.suffix_nil.mp ends)
  | cons chr back =>
      cases found : spaceLengthReversed (chr :: back) with
      | none =>
          refine .inl ⟨by rw [trimRightReversed, found], fun space listed ends => ?_⟩
          have absent : ∀ space ∈ spaces, ¬space.reverse <+: chr :: back := by
            simpa [spaceLengthReversed, hasPrefix, List.isPrefixOf_iff_prefix] using found
          refine absent space listed ?_
          rw [← List.reverse_suffix, List.reverse_reverse]
          exact ends
      | some length =>
          obtain ⟨space, listed, rest, same, rfl⟩ := spaceLengthReversed_some found
          have positive := List.length_pos_iff.mpr (spaces_nonempty listed)
          refine .inr ⟨rest.reverse, space, listed, by rw [same]; simp, ?_⟩
          have tail : (chr :: back).drop space.length = rest := by
            rw [same, ← List.length_reverse, List.drop_left]
          rw [trimRightReversed, found, trimRight, List.reverse_reverse]
          simp only
          rw [trimRightReversed_skip, ← List.drop_succ_cons , Nat.sub_add_cancel positive,
            tail]

theorem trimRight_spec (text : Text) :
    Ends (trimRight text) ∧ fields (trimRight text) = fields text := by
  induction length : text.length using Nat.strongRecOn generalizing text with
  | ind size ih =>
      rcases trimRight_cases text with ⟨same, ends⟩ | ⟨rest, space, listed, rfl, same⟩
      · rw [same]
        exact ⟨ends, rfl⟩
      · have positive := List.length_pos_iff.mpr (spaces_nonempty listed)
        have shorter : rest.length < size := by
          rw [← length, List.length_append]
          omega
        have parted := fields_gap listed rest []
        rw [List.append_nil] at parted
        rw [same, parted]
        obtain ⟨ends, tokens⟩ := ih rest.length shorter rest rfl
        exact ⟨ends, tokens.trans (List.append_nil _).symm⟩

theorem trimSpace_ends (text : Text) : Ends (trimSpace text) := (trimRight_spec (trimLeft 0 text)).1

theorem fields_trimSpace (text : Text) : fields (trimSpace text) = fields text :=
  (trimRight_spec (trimLeft 0 text)).2.trans (fields_trimLeft text)

theorem Ends.shorten {front text : Text} (ends : Ends (front ++ text)) : Ends text :=
  fun space listed inside => ends space listed (inside.trans (List.suffix_append front text))

/-- What follows a text without a space goes on with the last field. -/
theorem fieldsFrom_glued {word : Text} (solid : Solid word) (separate : Separate word) :
    ∀ text field, Ends text → text ≠ [] ∨ field ≠ [] →
      ∃ start, start ≠ [] ∧
        (fieldsFrom 0 field (text ++ word)).getLast? = some (start ++ word) := by
  intro text
  induction text using text_induction with
  | nil =>
      intro field ends nonempty
      have kept : field ≠ [] := nonempty.resolve_left fun different => different rfl
      refine ⟨field, kept, ?_⟩
      rw [List.nil_append, fieldsFrom_solid solid, if_neg (by simp [kept])]
      rfl
  | gap space listed rest ih =>
      intro field ends nonempty
      have more : rest ≠ [] := by
        rintro rfl
        exact ends space listed (by simp)
      obtain ⟨start, kept, last⟩ := ih [] ends.shorten (.inl more)
      refine ⟨start, kept, ?_⟩
      rw [List.append_assoc, fieldsFrom_space listed, List.getLast?_append, last]
      rfl
  | byte chr rest plain ih =>
      intro field ends nonempty
      have still := spaceLength_append (List.cons_ne_nil chr rest) separate plain
      rw [List.cons_append] at still ⊢
      rw [fieldsFrom_byte still]
      have shorter : Ends ([chr] ++ rest) := ends
      exact ih (field ++ [chr]) shorter.shorten (.inr (by simp))

theorem fields_glued {word text : Text} (solid : Solid word) (separate : Separate word)
    (ends : Ends text) (nonempty : text ≠ []) :
    ∃ start, start ≠ [] ∧ (fields (text ++ word)).getLast? = some (start ++ word) :=
  fieldsFrom_glued solid separate text [] ends (.inl nonempty)

theorem fields_eq_nil {text : Text} (ends : Ends text) : fields text = [] ↔ text = [] := by
  refine ⟨fun none => by_contra fun nonempty => ?_, by rintro rfl; rfl⟩
  obtain ⟨start, -, last⟩ := fields_glued .nil nofun ends nonempty
  rw [List.append_nil, none] at last
  cases last

end Strings
