/-!
# Texts that show where they end

A text can be told from what follows it when only some characters can follow, and none of these can be part of the
text where it might end. This is kept when texts are joined by a separator: each text shows where it ends, and what
follows it shows whether there is another one.
-/

namespace LeftCorner.Text

variable {α : Type} {stops more : List Char} {s t x y : List Char}

/-- The next character, if there is one, is one of some. -/
def StopsAt (stops x : List Char) : Prop := ∀ c ∈ x.head?, c ∈ stops

@[simp] theorem stopsAt_nil : StopsAt stops [] := by simp [StopsAt]

@[simp] theorem stopsAt_cons {c : Char} : StopsAt stops (c :: x) ↔ c ∈ stops := by simp [StopsAt]

theorem StopsAt.mono (h : StopsAt stops x) (hs : stops ⊆ more) : StopsAt more x := fun c hc => hs (h c hc)

/-- A text without any of the characters that can follow it shows where it ends. -/
theorem append_inj_of_not_mem (hs : ∀ c ∈ s, c ∉ stops) (ht : ∀ c ∈ t, c ∉ stops) (hx : StopsAt stops x)
    (hy : StopsAt stops y) (h : s ++ x = t ++ y) : s = t ∧ x = y := by
  induction s generalizing t with
  | nil =>
    cases t with
    | nil => exact ⟨rfl, h⟩
    | cons c t =>
      obtain rfl : x = c :: (t ++ y) := h
      exact absurd (stopsAt_cons.mp hx) (ht c List.mem_cons_self)
  | cons c s ih =>
    cases t with
    | nil =>
      obtain rfl : c :: (s ++ x) = y := h
      exact absurd (stopsAt_cons.mp hy) (hs c List.mem_cons_self)
    | cons d t =>
      obtain ⟨rfl, hst⟩ := List.cons.inj h
      obtain ⟨-, hs⟩ := List.forall_mem_cons.mp hs
      obtain ⟨-, ht⟩ := List.forall_mem_cons.mp ht
      obtain ⟨rfl, hxy⟩ := ih hs ht hst
      exact ⟨rfl, hxy⟩

/-- No other text of the kind, whatever comes after it, begins as this one does with what comes after it. -/
def Delimited (text : α → List Char) (kind : α → Prop) (stops : List Char) (a : α) : Prop :=
  ∀ b, kind b → ∀ x y, StopsAt stops x → StopsAt stops y → text a ++ x = text b ++ y → a = b ∧ x = y

/-- The texts of some things, with a separator before each. -/
def preceded (separator : List Char) (text : α → List Char) (as : List α) : List Char :=
  as.flatMap fun a => separator ++ text a

section Preceded

variable {c : Char} {separator : List Char} {text : α → List Char} {kind : α → Prop}

theorem intercalate_map_cons (a : α) (as : List α) :
    separator.intercalate ((a :: as).map text) = text a ++ preceded separator text as := by
  induction as generalizing a with
  | nil => simp [preceded]
  | cons b as ih =>
    rw [List.map_cons, List.map_cons, List.intercalate_cons_cons, ← List.map_cons, ih]
    simp [preceded]

theorem stopsAt_preceded (hc : c ∈ stops) (hx : StopsAt stops x) (as : List α) :
    StopsAt stops (preceded (c :: separator) text as ++ x) := by
  cases as with
  | nil => exact hx
  | cons a as => exact stopsAt_cons.mpr hc

theorem preceded_ne (hc : c ∉ more) (hx : StopsAt more x) (a : α) (as : List α) (y : List Char) :
    x ≠ preceded (c :: separator) text (a :: as) ++ y := by
  rintro rfl
  exact hc (stopsAt_cons.mp hx)

/-- A list of texts shows where it ends: the separator can follow each of them, but not the list. -/
theorem Delimited.preceded (hc : c ∈ stops) (hmore : c ∉ more) (hs : more ⊆ stops) {as bs : List α}
    (has : ∀ a ∈ as, Delimited text kind stops a) (hbs : ∀ b ∈ bs, kind b) (hx : StopsAt more x)
    (hy : StopsAt more y)
    (h : preceded (c :: separator) text as ++ x = Text.preceded (c :: separator) text bs ++ y) :
    as = bs ∧ x = y := by
  induction as generalizing bs with
  | nil =>
    cases bs with
    | nil => exact ⟨rfl, h⟩
    | cons b bs => exact absurd h (preceded_ne hmore hx b bs y)
  | cons a as ih =>
    cases bs with
    | nil => exact absurd h.symm (preceded_ne hmore hy a as x)
    | cons b bs =>
      obtain ⟨ha, has⟩ := List.forall_mem_cons.mp has
      obtain ⟨hb, hbs'⟩ := List.forall_mem_cons.mp hbs
      have h : text a ++ (Text.preceded (c :: separator) text as ++ x) =
          text b ++ (Text.preceded (c :: separator) text bs ++ y) := by
        simpa [Text.preceded] using h
      obtain ⟨rfl, hrest⟩ :=
        ha b hb _ _ (stopsAt_preceded hc (hx.mono hs) as) (stopsAt_preceded hc (hy.mono hs) bs) h
      obtain ⟨rfl, hxy⟩ := ih has hbs' hrest
      exact ⟨rfl, hxy⟩

end Preceded

section Joined

variable {β : Type} {separator : List β}

theorem intercalate_append {l m : List (List β)} (hl : l ≠ []) (hm : m ≠ []) :
    separator.intercalate (l ++ m) = separator.intercalate l ++ separator ++ separator.intercalate m := by
  induction l with
  | nil => exact absurd rfl hl
  | cons a l ih =>
    cases l with
    | nil => simp [List.intercalate_cons_of_ne_nil hm]
    | cons b l =>
      have h : separator.intercalate (b :: (l ++ m)) =
          separator.intercalate (b :: l) ++ separator ++ separator.intercalate m := ih (by simp)
      simp [List.intercalate_cons_cons, h]

theorem filter_intercalate (p : β → Bool) (ls : List (List β)) :
    (separator.intercalate ls).filter p = (separator.filter p).intercalate (ls.map (List.filter p)) := by
  induction ls with
  | nil => rfl
  | cons l ls ih =>
    cases ls with
    | nil => simp
    | cons m ls =>
      rw [List.intercalate_cons_cons, List.filter_append, List.filter_append, ih]
      simp [List.intercalate_cons_cons]

/-- Joining lists that were joined before is joining all that they list. -/
theorem intercalate_flatten {ls : List (List (List β))} (h : ∀ l ∈ ls, l ≠ []) :
    separator.intercalate (ls.map separator.intercalate) = separator.intercalate ls.flatten := by
  induction ls with
  | nil => rfl
  | cons l ls ih =>
    obtain ⟨hl, hls⟩ := List.forall_mem_cons.mp h
    cases ls with
    | nil => simp
    | cons m ls =>
      have hne : (m :: ls).flatten ≠ [] := by simp [hls m List.mem_cons_self]
      rw [List.map_cons, List.intercalate_cons_of_ne_nil (by simp), ih hls, ← intercalate_append hl hne,
        ← List.flatten_cons]

end Joined

end LeftCorner.Text
