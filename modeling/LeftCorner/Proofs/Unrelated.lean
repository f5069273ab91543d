import LeftCorner.Proofs.Parallel
import LeftCorner.Proofs.Productions

/-!
# Definitions that a rule does not refer to

A run for a rule meets only the rules that it refers to, at any place and by way of any number of others. Definitions
of other rules may be added anywhere, and may refer to these in turn. They rebuild all corner sets and stand among the
candidates of every reduction, but change neither what a run returns nor what it leaves pending.
-/

namespace LeftCorner

namespace RuleTable

/-- Of the rules that are kept, a definition changes none but its own. -/
theorem filter_define (d : Definition) (rules : RuleTable) (keep : RuleName → Bool) :
    (rules.define d).filter (keep ·.1) =
      if keep d.rule then define d (rules.filter (keep ·.1)) else rules.filter (keep ·.1) := by
  induction rules with
  | nil => cases hk : keep d.rule <;> simp [define, hk]
  | cons r rules ih =>
    obtain ⟨name, alternatives⟩ := r
    by_cases h : name = d.rule
    · cases hk : keep d.rule <;> simp [define, h, hk]
    · cases hk : keep name <;> cases hd : keep d.rule <;> simp [define, h, hk, hd, ih]

end RuleTable

namespace Definition

/-- Some definitions, and others of a kind among them, at any places. -/
inductive Extends (extra : Definition → Prop) : List Definition → List Definition → Prop where
  | nil : Extends extra [] []
  | same {ds es} (d : Definition) (h : Extends extra ds es) : Extends extra (d :: ds) (d :: es)
  | more {ds es d} (hd : extra d) (h : Extends extra ds es) : Extends extra ds (d :: es)

/-- A rule is named in an alternative of another, at any place. -/
def RefersTo (ds : List Definition) (rule name : RuleName) : Prop :=
  ∃ d ∈ ds, d.rule = rule ∧ name ∈ d.alternative.phrase.references

variable {extra : Definition → Prop} {ds es : List Definition} {d : Definition} {rule name target : RuleName}

theorem LeadsTo.refersTo (h : LeadsTo ds rule name) : RefersTo ds rule name := by
  obtain ⟨d, hd, hr, hn⟩ := h
  exact ⟨d, hd, hr, Phrase.leftmost_subset_references _ hn⟩

theorem Extends.filter_eq (h : Extends extra ds es) {keep : Definition → Bool} (hk : ∀ d, extra d → ¬ keep d) :
    es.filter keep = ds.filter keep := by
  induction h with
  | nil => rfl
  | same d _ ih => simp only [List.filter_cons, ih]
  | more hd _ ih => rw [List.filter_cons_of_neg (hk _ hd), ih]

theorem Extends.mem_iff (h : Extends extra ds es) (hd : ¬ extra d) : d ∈ es ↔ d ∈ ds := by
  induction h with
  | nil => exact Iff.rfl
  | same e _ ih => rw [List.mem_cons, List.mem_cons, ih]
  | more he _ ih =>
    rw [List.mem_cons, ih]
    refine or_iff_right ?_
    rintro rfl
    exact hd he

/-- A rule that gets no more definitions leads to the same names. -/
theorem Extends.leadsTo_iff {known : RuleName → Prop} (h : Extends (¬ known ·.rule) ds es) (hr : known rule) :
    LeadsTo es rule name ↔ LeadsTo ds rule name := by
  have hold : ∀ d : Definition, d.rule = rule → ¬ ¬ known d.rule := by
    rintro d rfl hn
    exact hn hr
  constructor
  · rintro ⟨d, hd, he, hn⟩
    exact ⟨d, (h.mem_iff (hold d he)).mp hd, he, hn⟩
  · rintro ⟨d, hd, he, hn⟩
    exact ⟨d, (h.mem_iff (hold d he)).mpr hd, he, hn⟩

theorem Extends.exists_rule_iff {known : RuleName → Prop} (h : Extends (¬ known ·.rule) ds es) (hr : known rule) :
    (∃ d ∈ es, d.rule = rule) ↔ ∃ d ∈ ds, d.rule = rule := by
  refine exists_congr fun d => and_congr_left ?_
  rintro rfl
  exact h.mem_iff fun hn => hn hr

end Definition

/-- From where one relation stays within some things, it leads where another does that agrees with it there. -/
theorem reflTransGen_within {α : Type} {r s : α → α → Prop} {known : α → Prop} {a b : α}
    (hclosed : ∀ a b, known a → r a b → known b) (hagree : ∀ a b, known a → r a b → s a b) (ha : known a)
    (h : Relation.ReflTransGen r a b) : known b ∧ Relation.ReflTransGen s a b := by
  induction h with
  | refl => exact ⟨ha, .refl⟩
  | tail _ hr ih => exact ⟨hclosed _ _ ih.1 hr, ih.2.tail (hagree _ _ ih.1 hr)⟩

namespace Grammar

open Definition

/-- The rules that are kept are those that would be there without the other definitions. -/
theorem filter_rules_ofDefinitions (name : String) (ds : List Definition) (keep : RuleName → Bool) :
    (ofDefinitions name ds).rules.filter (keep ·.1) = (ofDefinitions name (ds.filter (keep ·.rule))).rules := by
  induction ds using List.reverseRecOn with
  | nil => rfl
  | append_singleton ds d ih =>
    rw [ofDefinitions_concat, rules_define, RuleTable.filter_define, ih, List.filter_append]
    cases hk : keep d.rule with
    | true => simp [hk, ofDefinitions_concat]
    | false => simp [hk]

/-- The name of a grammar makes no difference to its rules. -/
theorem rules_ofDefinitions_eq (name name' : String) (ds : List Definition) :
    (ofDefinitions name' ds).rules = (ofDefinitions name ds).rules := by
  rw [rules_ofDefinitions, rules_ofDefinitions]

section

variable {ds es : List Definition} {known : RuleName → Prop} {target : RuleName}

-- The rules that are known refer to no others, and none of them gets more definitions.
variable (hclosed : ∀ rule name, known rule → RefersTo ds rule name → known name) (h : Extends (¬ known ·.rule) ds es)

include hclosed

theorem known_of_mem_cornersFrom (name : String) (ht : known target) {corner : RuleName}
    (hc : corner ∈ (ofDefinitions name ds).rules.cornersFrom target) : known corner :=
  (reflTransGen_within (fun rule name hr hn => hclosed rule name hr hn.refersTo) (fun _ _ _ hn => hn) ht
    (mem_cornersFrom_ofDefinitions.mp hc)).1

theorem known_of_mem_productions {name : String} {bound : Bound} (ht : known target) {d : Production}
    (hd : d ∈ (ofDefinitions name ds).productions target bound) : ∀ name ∈ d.phrase.references, known name := by
  obtain ⟨⟨names, hn, hc⟩, a, ha, -, hm⟩ := mem_productions.mp hd
  obtain ⟨-, -, -, hv⟩ := Alternative.mem_productions.mp hm
  rw [corners?_ofDefinitions] at hn
  split at hn
  next =>
    cases hn
    have hknown : known d.rule := known_of_mem_cornersFrom hclosed name ht hc
    intro name hr
    refine hclosed d.rule name hknown ⟨⟨d.rule, a⟩, offers_ofDefinitions.mp ha, rfl, ?_⟩
    exact Phrase.references_subset_of_variant hv hr
  next => cases hn

include h

theorem mem_cornersFrom_of_extends (name name' : String) (ht : known target) {corner : RuleName} :
    corner ∈ (ofDefinitions name' es).rules.cornersFrom target ↔
      corner ∈ (ofDefinitions name ds).rules.cornersFrom target := by
  rw [mem_cornersFrom_ofDefinitions, mem_cornersFrom_ofDefinitions]
  have hleads : ∀ rule name, known rule → LeadsTo ds rule name → known name :=
    fun rule name hr hn => hclosed rule name hr hn.refersTo
  constructor
  · refine fun hc => (reflTransGen_within ?_ ?_ ht hc).2
    · exact fun rule name hr hn => hleads rule name hr ((h.leadsTo_iff hr).mp hn)
    · exact fun rule name hr hn => (h.leadsTo_iff hr).mp hn
  · exact fun hc => (reflTransGen_within hleads (fun rule name hr hn => (h.leadsTo_iff hr).mpr hn) ht hc).2

theorem filter_cornersFrom_of_extends (name name' : String) (ht : known target) :
    (ofDefinitions name' es).rules.filter (((ofDefinitions name' es).rules.cornersFrom target).contains ·.1) =
      (ofDefinitions name ds).rules.filter (((ofDefinitions name ds).rules.cornersFrom target).contains ·.1) := by
  have hcorners : ((ofDefinitions name' es).rules.cornersFrom target).contains =
      ((ofDefinitions name ds).rules.cornersFrom target).contains := by
    funext corner
    rw [Bool.eq_iff_iff, List.contains_iff_mem, List.contains_iff_mem]
    exact mem_cornersFrom_of_extends hclosed h name name' ht
  have hkeep : ∀ d : Definition, ¬ known d.rule →
      ¬ ((ofDefinitions name ds).rules.cornersFrom target).contains d.rule := by
    intro d hd hc
    exact hd (known_of_mem_cornersFrom hclosed name ht (List.contains_iff_mem.mp hc))
  rw [hcorners, filter_rules_ofDefinitions, h.filter_eq hkeep, filter_rules_ofDefinitions]
  exact rules_ofDefinitions_eq name name' _

theorem productions_of_extends (name name' : String) (ht : known target) (bound : Bound) :
    (ofDefinitions name' es).productions target bound = (ofDefinitions name ds).productions target bound := by
  simp only [productions, corners?_ofDefinitions, h.exists_rule_iff ht]
  by_cases hd : ∃ d ∈ ds, d.rule = target
  · simp only [if_pos hd]
    rw [filter_cornersFrom_of_extends hclosed h name name' ht]
  · simp only [if_neg hd]

theorem reduce_of_extends (name name' : String) {call call' : RuleParser}
    (hc : ∀ rule, known rule → call' rule = call rule) (ht : known target) (bound : Bound) (p : Pending) :
    (ofDefinitions name' es).reduce call' target bound p = (ofDefinitions name ds).reduce call target bound p := by
  rw [reduce, productions_of_extends hclosed h name name' ht bound]
  exact Production.attemptFirst_congr (fun d hd rule hr => hc rule (known_of_mem_productions hclosed ht hd rule hr)) p

/-- The induction is on the allowance; nested parses have less of it, and are of rules that are known. -/
theorem parse_of_extends (name name' : String) (n : Nat) (ht : known target) :
    (ofDefinitions name' es).parse n target = (ofDefinitions name ds).parse n target := by
  induction n generalizing target with
  | zero => rfl
  | succ n ih =>
    funext bound p
    rw [parse, parse, reduce_of_extends hclosed h name name' (fun rule hr => ih hr) ht, ih ht]

end

/-- Definitions of rules that a target does not refer to, by way of any number of rules, change nothing about its
parses and reductions, wherever they stand among the others. -/
theorem parse_and_reduce_of_extends {ds es : List Definition} {target : RuleName}
    (h : Extends (¬ Relation.ReflTransGen (RefersTo ds) target ·.rule) ds es) (name name' : String) (n : Nat)
    (bound : Bound) (p : Pending) :
    (ofDefinitions name' es).parse n target bound p = (ofDefinitions name ds).parse n target bound p ∧
      (ofDefinitions name' es).reduce ((ofDefinitions name' es).parse n) target bound p =
        (ofDefinitions name ds).reduce ((ofDefinitions name ds).parse n) target bound p := by
  have hclosed : ∀ rule name, Relation.ReflTransGen (RefersTo ds) target rule → RefersTo ds rule name →
      Relation.ReflTransGen (RefersTo ds) target name := fun _ _ hr hn => hr.tail hn
  refine ⟨?_, reduce_of_extends hclosed h name name' ?_ .refl bound p⟩
  · rw [parse_of_extends hclosed h name name' n .refl]
  · exact fun rule hr => parse_of_extends hclosed h name name' n hr

theorem sums_refersTo {name : RuleName} (h : Relation.ReflTransGen (RefersTo sumDefinitions) "expr" name) :
    name ∈ ["expr", "term", "sum", "call"] := by
  have hclosed : ∀ d ∈ sumDefinitions, d.rule ∈ ["expr", "term", "sum", "call"] →
      ∀ name ∈ d.alternative.phrase.references, name ∈ ["expr", "term", "sum", "call"] := by decide
  refine (reflTransGen_within (s := fun _ _ => True) ?_ (fun _ _ _ _ => trivial) List.mem_cons_self h).1
  rintro rule name hr ⟨d, hd, rfl, hn⟩
  exact hclosed d hd hr name hn

/-- Groups and lists refer to expressions, and a block may be a list besides. Expressions refer to none of them. -/
theorem sums_parse_and_reduce_of_extends :
    let group : Definition := ⟨"group", 0, "(" + .rule "expr" + ")", .middle⟩
    let list : Definition := ⟨"list", .plain 20 (.rule "expr" + "," + .rule "list")⟩
    let block : Definition := ⟨"block", .plain 1 (.rule "list" + "$")⟩
    let term : Node := .tree "term" 0 [.terminal "n"]
    let sum : Node := .tree "sum" 10 [.tree "expr" 0 [term], .terminal "+", term]
    Extends (¬ Relation.ReflTransGen (RefersTo sumDefinitions) "expr" ·.rule) sumDefinitions
        (group :: list :: sumDefinitions ++ [block]) ∧
      (ofDefinitions "lists" (group :: list :: sumDefinitions ++ [block])).parse 9 "expr" .standard
        [.token "n", .token "+", .token "n", .token ",", .token "n"] =
          .matched ⟨"expr", 0, [sum]⟩ [.token ",", .token "n"] := by
  intro group list block term sum
  have hgroup : ¬ Relation.ReflTransGen (RefersTo sumDefinitions) "expr" group.rule :=
    fun h => absurd (sums_refersTo h) (by decide)
  have hlist : ¬ Relation.ReflTransGen (RefersTo sumDefinitions) "expr" list.rule :=
    fun h => absurd (sums_refersTo h) (by decide)
  have hblock : ¬ Relation.ReflTransGen (RefersTo sumDefinitions) "expr" block.rule :=
    fun h => absurd (sums_refersTo h) (by decide)
  have h : Extends (¬ Relation.ReflTransGen (RefersTo sumDefinitions) "expr" ·.rule) sumDefinitions
      (group :: list :: sumDefinitions ++ [block]) :=
    .more hgroup (.more hlist (.same _ (.same _ (.same _ (.same _ (.same _ (.more hblock .nil)))))))
  refine ⟨h, ?_⟩
  rw [(parse_and_reduce_of_extends h "sums" "lists" 9 .standard _).1]
  rfl

end Grammar

end LeftCorner
