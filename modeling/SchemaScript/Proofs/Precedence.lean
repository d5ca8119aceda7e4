import Mathlib

namespace SchemaScript

variable {α β : Type}

/-- Every element of a list is in a relation to the elements that stand before
it. Rules of the kind "declared earlier" are stated with it. -/
def EachAfter (rule : List α → α → Prop) (list : List α) : Prop :=
  ∀ before element after, list = before ++ element :: after → rule before element

/-- In a list with distinct keys the last key is new. -/
theorem not_mem_map_of_nodup_concat {f : α → β} {list : List α} {last : α}
    (h : ((list ++ [last]).map f).Nodup) : f last ∉ list.map f := by
  rw [List.map_append, List.map_singleton, List.nodup_append] at h
  intro hmem
  exact h.2.2 _ hmem _ List.mem_cons_self rfl

section Correspondence

variable {related : α → β → Prop} {xs : List α} {ys : List β}

theorem exists_left_of_mem (h : List.Forall₂ related xs ys) {y : β} (hy : y ∈ ys) :
    ∃ x ∈ xs, related x y := by
  induction h with
  | nil => cases hy
  | cons hrelated _ ih =>
    rcases List.mem_cons.mp hy with rfl | hy
    · exact ⟨_, List.mem_cons_self, hrelated⟩
    · obtain ⟨x, hx, hrelated⟩ := ih hy
      exact ⟨x, List.mem_cons_of_mem _ hx, hrelated⟩

theorem exists_right_of_mem (h : List.Forall₂ related xs ys) {x : α} (hx : x ∈ xs) :
    ∃ y ∈ ys, related x y :=
  exists_left_of_mem h.flip hx

theorem map_eq_map_of_forall₂ {γ : Type} {f : α → γ} {g : β → γ} (h : List.Forall₂ related xs ys)
    (heq : ∀ x y, related x y → f x = g y) : xs.map f = ys.map g := by
  have hmap := List.rel_map (P := Eq) heq h
  rwa [List.forall₂_eq_eq_eq] at hmap

/-- Elements that correspond can be taken as elements of their lists. -/
theorem forall₂_and_mem (h : List.Forall₂ related xs ys) :
    List.Forall₂ (fun x y => related x y ∧ x ∈ xs ∧ y ∈ ys) xs ys := by
  induction h with
  | nil => exact .nil
  | cons hrelated _ ih =>
    refine .cons ⟨hrelated, List.mem_cons_self, List.mem_cons_self⟩ (ih.imp ?_)
    exact fun _ _ h => ⟨h.1, List.mem_cons_of_mem _ h.2.1, List.mem_cons_of_mem _ h.2.2⟩

theorem flatMap_eq_flatMap_of_forall₂ {γ : Type} {f : α → List γ} {g : β → List γ}
    (h : List.Forall₂ related xs ys) (heq : ∀ x, ∀ y ∈ ys, related x y → f x = g y) :
    xs.flatMap f = ys.flatMap g := by
  rw [List.flatMap_def, List.flatMap_def]
  exact congrArg _ (map_eq_map_of_forall₂ (forall₂_and_mem h) fun x y h => heq x y h.2.2 h.1)

/-- A correspondence carries over to a list that looks the same, if it does so for
every element. -/
theorem exists_forall₂_of_map_eq {γ δ : Type} {f : α → γ} {g : β → δ} {ys' : List β}
    (h : List.Forall₂ related xs ys) (hmap : ys'.map g = ys.map g)
    (hcarry : ∀ x y y', related x y → g y' = g y → ∃ x', related x' y' ∧ f x' = f x) :
    ∃ xs', List.Forall₂ related xs' ys' ∧ xs'.map f = xs.map f := by
  induction h generalizing ys' with
  | nil =>
    obtain rfl := List.map_eq_nil_iff.mp hmap
    exact ⟨[], .nil, rfl⟩
  | cons hrelated _ ih =>
    obtain ⟨y', later, rfl, hy, hlater⟩ := List.map_eq_cons_iff.mp hmap
    obtain ⟨x', hx', hf⟩ := hcarry _ _ _ hrelated hy
    obtain ⟨xs', hxs', hfs⟩ := ih hlater
    exact ⟨x' :: xs', .cons hx' hxs', by simp [hf, hfs]⟩

/-- Every element has a partner exactly when there is a list of partners. -/
theorem exists_forall₂_iff : (∃ xs, List.Forall₂ related xs ys) ↔ ∀ y ∈ ys, ∃ x, related x y := by
  constructor
  · rintro ⟨xs, h⟩ y hy
    obtain ⟨x, _, hrelated⟩ := exists_left_of_mem h hy
    exact ⟨x, hrelated⟩
  · intro h
    induction ys with
    | nil => exact ⟨[], .nil⟩
    | cons y ys ih =>
      rw [List.forall_mem_cons] at h
      obtain ⟨x, hrelated⟩ := h.1
      obtain ⟨xs, hrest⟩ := ih h.2
      exact ⟨x :: xs, .cons hrelated hrest⟩

theorem forall₂_concat (h : List.Forall₂ related xs ys) {x : α} {y : β} (hlast : related x y) :
    List.Forall₂ related (xs ++ [x]) (ys ++ [y]) :=
  List.rel_append h (.cons hlast .nil)

/-- Lists that correspond to lists which correspond to each other do so themselves. -/
theorem forall₂_square {γ δ : Type} {first : α → γ → Prop} {second : β → δ → Prop}
    {wanted : γ → δ → Prop} {zs : List γ} {ws : List δ} (h : List.Forall₂ related xs ys)
    (hfirst : List.Forall₂ first xs zs) (hsecond : List.Forall₂ second ys ws)
    (hsquare : ∀ {x y z w}, related x y → first x z → second y w → wanted z w) :
    List.Forall₂ wanted zs ws := by
  induction h generalizing zs ws with
  | nil =>
    cases hfirst
    cases hsecond
    exact .nil
  | cons hrelated _ ih =>
    cases hfirst with
    | cons hx hxs =>
      cases hsecond with
      | cons hy hys => exact .cons (hsquare hrelated hx hy) (ih hxs hys)

theorem forall₂_carry {γ : Type} {second : γ → β → Prop} {wanted : γ → α → Prop} {zs : List γ}
    (h : List.Forall₂ related xs ys) (hsecond : List.Forall₂ second zs ys)
    (hcarry : ∀ {x y z}, related x y → second z y → wanted z x) : List.Forall₂ wanted zs xs := by
  have hsame : List.Forall₂ Eq xs xs := List.forall₂_same.mpr fun _ _ => rfl
  refine (forall₂_square h hsame hsecond.flip ?_).flip
  rintro x y _ z hrelated rfl hz
  exact hcarry hrelated hz

end Correspondence

namespace EachAfter

variable {rule : List α → α → Prop} {list : List α} {element : α}

theorem nil : EachAfter rule [] := by
  intro before element after h
  simp at h

/-- A list keeps the rule when it grows at its end by an element that fits. -/
theorem concat (h : EachAfter rule list) (hlast : rule list element) :
    EachAfter rule (list ++ [element]) := by
  intro before other after hsplit
  -- The element of the split is the new one or stands in the old list.
  rcases List.eq_nil_or_concat after with rfl | ⟨rest, last, rfl⟩
  · obtain ⟨rfl, hother⟩ := List.append_inj' hsplit rfl
    cases hother
    exact hlast
  · have hsplit : list ++ [element] = (before ++ other :: rest) ++ [last] := by simpa using hsplit
    obtain ⟨hlist, _⟩ := List.append_inj' hsplit rfl
    exact h before other rest hlist

theorem of_append {later : List α} (h : EachAfter rule (list ++ later)) : EachAfter rule list := by
  intro before other after hsplit
  apply h before other (after ++ later)
  simp [hsplit]

theorem of_append_right {earlier : List α} (h : EachAfter rule (earlier ++ list)) :
    EachAfter (fun before => rule (earlier ++ before)) list := by
  intro before other after hsplit
  apply h (earlier ++ before) other after
  simp [hsplit]

/-- Two lists that keep the rule make one, if the second keeps it after the first. -/
theorem append {later : List α} (h : EachAfter rule list)
    (hlater : EachAfter (fun before => rule (list ++ before)) later) :
    EachAfter rule (list ++ later) := by
  induction later using List.reverseRecOn with
  | nil => simpa using h
  | append_singleton later element ih =>
    rw [← List.append_assoc]
    exact (ih hlater.of_append).concat (hlater later element [] rfl)

theorem of_mem (h : EachAfter rule list) (hmem : element ∈ list) :
    ∃ before, before ⊆ list ∧ rule before element := by
  obtain ⟨before, after, rfl⟩ := List.append_of_mem hmem
  exact ⟨before, List.subset_append_left .., h before element after rfl⟩

theorem last (h : EachAfter rule (list ++ [element])) : rule list element :=
  h list element [] rfl

/-- A list that corresponds to a split list element by element splits alike. -/
private theorem forall₂_split {related : β → α → Prop} {before after : List β} {x : β}
    {list : List α} (h : List.Forall₂ related (before ++ x :: after) list) :
    ∃ before' x' after', list = before' ++ x' :: after' ∧ List.Forall₂ related before before' ∧
      related x x' := by
  induction before generalizing list with
  | nil =>
    cases h with
    | cons hx _ => exact ⟨[], _, _, rfl, .nil, hx⟩
  | cons y before ih =>
    cases h with
    | cons hy hrest =>
      obtain ⟨before', x', after', rfl, hbefore, hx⟩ := ih hrest
      exact ⟨_ :: before', x', after', rfl, .cons hy hbefore, hx⟩

/-- A rule carries over between lists whose elements correspond one by one. -/
theorem of_forall₂ {related : β → α → Prop} {other : List β → β → Prop} {others : List β}
    (h : EachAfter rule list) (hrelated : List.Forall₂ related others list)
    (htransfer : ∀ {before x before' x'}, List.Forall₂ related before before' → related x x' →
      rule before' x' → other before x) : EachAfter other others := by
  rintro before x after rfl
  obtain ⟨before', x', after', rfl, hbefore, hx⟩ := forall₂_split hrelated
  exact htransfer hbefore hx (h before' x' after' rfl)

end EachAfter

end SchemaScript
