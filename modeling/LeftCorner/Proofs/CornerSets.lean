import LeftCorner.Grammar.Corners
import Mathlib.Data.List.Nodup
import Mathlib.Logic.Relation

/-!
# Corner sets are closed

What a search has reached, and what it has yet to look at, are names that its rule leads to. What the names it has
reached lead to has been reached, or is on the stack. Both hold at first, when only the rule itself is on the stack,
and whether the name on top is passed over or reached. When the stack is empty, what was reached is closed: a corner
set holds the names that its rule leads to, and no others.
-/

namespace LeftCorner.RuleTable

/-- What some names lead to in one step is among them. -/
def Closed (rules : RuleTable) (reached : List RuleName) : Prop := ∀ name ∈ reached, rules.leftmost name ⊆ reached

/-- A name leads to another in any number of steps. -/
def Leads (rules : RuleTable) : RuleName → RuleName → Prop :=
  Relation.ReflTransGen fun rule corner => corner ∈ rules.leftmost rule

/-- A search for the corners of a rule has reached some names, and others are on its stack. -/
structure Searching (rules : RuleTable) (start : RuleName) (reached stack : List RuleName) : Prop where
  start_mem : start ∈ reached ∨ start ∈ stack
  leads_reached : ∀ name ∈ reached, rules.Leads start name
  leads_stack : ∀ name ∈ stack, rules.Leads start name
  /-- What the reached names lead to is not forgotten. -/
  leftmost_mem : ∀ name ∈ reached, ∀ corner ∈ rules.leftmost name, corner ∈ reached ∨ corner ∈ stack
  nodup : reached.Nodup

namespace Searching

variable {rules : RuleTable} {start name : RuleName} {reached stack : List RuleName}

theorem initial (rules : RuleTable) (start : RuleName) : Searching rules start [] [start] where
  start_mem := .inr List.mem_cons_self
  leads_reached := by simp
  leads_stack _ hn := List.mem_singleton.mp hn ▸ .refl
  leftmost_mem := by simp
  nodup := .nil

/-- A name that has been reached is not needed on the stack. -/
theorem mem_of_mem_cons (h : name ∈ reached) {corner : RuleName} (hc : corner ∈ reached ∨ corner ∈ name :: stack) :
    corner ∈ reached ∨ corner ∈ stack := by
  rcases hc with hc | hc
  · exact .inl hc
  · rcases List.mem_cons.mp hc with rfl | hc
    · exact .inl h
    · exact .inr hc

theorem pass (hs : Searching rules start reached (name :: stack)) (h : name ∈ reached) :
    Searching rules start reached stack where
  start_mem := mem_of_mem_cons h hs.start_mem
  leads_reached := hs.leads_reached
  leads_stack other ho := hs.leads_stack other (List.mem_cons_of_mem _ ho)
  leftmost_mem other ho corner hc := mem_of_mem_cons h (hs.leftmost_mem other ho corner hc)
  nodup := hs.nodup

/-- A name that goes from the stack to the reached ones is still there, whatever is put on the stack. -/
theorem mem_concat_of_mem_cons (next : List RuleName) {corner : RuleName}
    (hc : corner ∈ reached ∨ corner ∈ name :: stack) : corner ∈ reached ++ [name] ∨ corner ∈ next ++ stack := by
  rcases hc with hc | hc
  · exact .inl (List.mem_append_left _ hc)
  · rcases List.mem_cons.mp hc with rfl | hc
    · exact .inl (List.mem_append_right _ (List.mem_singleton.mpr rfl))
    · exact .inr (List.mem_append_right _ hc)

theorem visit (hs : Searching rules start reached (name :: stack)) (h : name ∉ reached) :
    Searching rules start (reached ++ [name]) ((rules.leftmost name).reverse ++ stack) where
  start_mem := mem_concat_of_mem_cons _ hs.start_mem
  leads_reached other ho := by
    rcases List.mem_append.mp ho with ho | ho
    · exact hs.leads_reached other ho
    · obtain rfl := List.mem_singleton.mp ho
      exact hs.leads_stack other List.mem_cons_self
  leads_stack other ho := by
    rcases List.mem_append.mp ho with ho | ho
    · exact (hs.leads_stack name List.mem_cons_self).tail (List.mem_reverse.mp ho)
    · exact hs.leads_stack other (List.mem_cons_of_mem _ ho)
  leftmost_mem other ho corner hc := by
    rcases List.mem_append.mp ho with ho | ho
    · exact mem_concat_of_mem_cons _ (hs.leftmost_mem other ho corner hc)
    · obtain rfl := List.mem_singleton.mp ho
      exact .inr (List.mem_append_left _ (List.mem_reverse.mpr hc))
  nodup := by
    rw [List.nodup_append]
    exact ⟨hs.nodup, List.nodup_singleton name, fun other ho _ hn he => h (List.mem_singleton.mp hn ▸ he ▸ ho)⟩

/-- The induction is on the run of the search, which ends because each name is taken from the stack as often as it was
put there. -/
theorem search (hs : Searching rules start reached stack) :
    Searching rules start (search rules.direct reached stack) [] := by
  induction reached, stack using search.induct rules.direct with
  | case1 reached => rwa [RuleTable.search]
  | case2 reached name stack h ih =>
    rw [RuleTable.search, if_pos h]
    exact ih (hs.pass h)
  | case3 reached name stack h ih =>
    rw [RuleTable.search, if_neg h]
    rw [lookup_direct] at ih ⊢
    exact ih (hs.visit h)

theorem closed (hs : Searching rules start reached []) : rules.Closed reached := fun name hn corner hc =>
  (hs.leftmost_mem name hn corner hc).resolve_right List.not_mem_nil

end Searching

/-- When the stack of a rule's search is empty, its corners have been reached. -/
theorem searching_cornersFrom (rules : RuleTable) (name : RuleName) :
    Searching rules name (rules.cornersFrom name) [] :=
  (Searching.initial rules name).search

theorem self_mem_cornersFrom (rules : RuleTable) (name : RuleName) : name ∈ rules.cornersFrom name :=
  (rules.searching_cornersFrom name).start_mem.resolve_right List.not_mem_nil

/-- The names that can stand leftmost in a corner are corners. -/
theorem closed_cornersFrom (rules : RuleTable) (name : RuleName) : rules.Closed (rules.cornersFrom name) :=
  (rules.searching_cornersFrom name).closed

/-- One step suffices for a name that can stand leftmost in an alternative. -/
theorem leftmost_subset_cornersFrom (rules : RuleTable) (name : RuleName) :
    rules.leftmost name ⊆ rules.cornersFrom name :=
  rules.closed_cornersFrom name name (rules.self_mem_cornersFrom name)

/-- The corners of a name are the names it leads to in any number of steps. -/
theorem mem_cornersFrom {rules : RuleTable} {name corner : RuleName} : corner ∈ rules.cornersFrom name ↔
    rules.Leads name corner := by
  constructor
  · exact (rules.searching_cornersFrom name).leads_reached corner
  · intro h
    induction h with
    | refl => exact rules.self_mem_cornersFrom name
    | tail _ hl ih => exact rules.closed_cornersFrom name _ ih hl

/-- A corner set names each corner once. -/
theorem nodup_cornersFrom (rules : RuleTable) (name : RuleName) : (rules.cornersFrom name).Nodup :=
  (rules.searching_cornersFrom name).nodup

/-- The induction follows `eraseDups`, which goes on with the names that differ from the first. -/
theorem nodup_eraseDups : ∀ names : List RuleName, names.eraseDups.Nodup
  | [] => .nil
  | name :: names => by
    rw [List.eraseDups_cons]
    exact List.nodup_cons.mpr ⟨by simp, nodup_eraseDups _⟩
termination_by names => names.length
decreasing_by exact Nat.lt_succ_of_le (List.length_filter_le _ _)

end LeftCorner.RuleTable
