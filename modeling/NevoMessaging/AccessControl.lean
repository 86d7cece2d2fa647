import NevoMessaging.Lib.JsString
import NevoMessaging.Lib.Table

/-!
# Access control

`isAccessAllowed` does not go through the list of rules. `compile` puts every rule into one of four
indexes, depending on whether it names a topic and a method, and a rule that names both goes under
the key `topic::method`. Two different pairs can have the same key, since `::` may occur in a name.

The cache of compiled configurations is left out: a configuration is a value here.

Results:
1. `mem_candidates`: which rules a request finds in the indexes.
2. `compiled_acl_iff`: when the indexes decide like the list of rules.
3. `ambiguous_key_allows`: otherwise a caller gets in whom no rule allows.
-/

namespace NevoMessaging

open List

open JsString

structure AccessRule where
  topic : Option JsString := none
  method : Option JsString := none
  allow : Option (List JsString) := none
  deny : Option (List JsString) := none

structure AccessControlConfig where
  rules : Option (List AccessRule) := none
  allowAllByDefault : Option Bool := none

def star : JsString := lit "*"

/-- `field && field !== "*" ? field : null` -/
def named (field : Option JsString) : Option JsString := field.filter fun s => s ≠ [] ∧ s ≠ star

def topicMethodKey (topic method : JsString) : JsString := topic ++ lit "::" ++ method

structure AclBucket where
  key : JsString
  rules : List AccessRule

/-- A map from keys to lists of rules. -/
abbrev AclIndex := Table AclBucket.key

namespace AclIndex

def lookup (index : AclIndex) (key : JsString) : List AccessRule :=
  ((index.get? key).map (·.rules)).getD []

def push (index : AclIndex) (key : JsString) (rule : AccessRule) : AclIndex :=
  index.set { key, rules := lookup index key ++ [rule] }

theorem lookup_push_self (index : AclIndex) (key : JsString) (rule : AccessRule) :
    lookup (push index key rule) key = lookup index key ++ [rule] := by
  have hget : (push index key rule).get? key = some ⟨key, lookup index key ++ [rule]⟩ :=
    Table.get?_set_self index ⟨key, lookup index key ++ [rule]⟩
  rw [lookup, hget]
  rfl

theorem lookup_push_ne (index : AclIndex) {key k : JsString} (rule : AccessRule) (h : k ≠ key) :
    lookup (push index key rule) k = lookup index k := by
  have hget : (push index key rule).get? k = index.get? k := Table.get?_set_ne index h
  rw [lookup, hget, lookup]

theorem mem_lookup_push (index : AclIndex) (key k : JsString) (rule r : AccessRule) :
    r ∈ lookup (push index key rule) k ↔ r ∈ lookup index k ∨ r = rule ∧ key = k := by
  by_cases h : k = key
  · subst h
    rw [lookup_push_self, mem_append, mem_singleton]
    exact or_congr_right (iff_self_and.mpr fun _ => rfl)
  · rw [lookup_push_ne index rule h]
    exact (or_iff_left fun hr => h hr.2.symm).symm

end AclIndex

structure CompiledAcl where
  globalDefault : List AccessRule := []
  byTopic : AclIndex := .empty
  byMethod : AclIndex := .empty
  byTopicMethod : AclIndex := .empty
  allowAllByDefault : Bool

namespace CompiledAcl

def add (c : CompiledAcl) (rule : AccessRule) : CompiledAcl :=
  match named rule.topic, named rule.method with
  | some topic, some method =>
    { c with byTopicMethod := AclIndex.push c.byTopicMethod (topicMethodKey topic method) rule }
  | some topic, none => { c with byTopic := AclIndex.push c.byTopic topic rule }
  | none, some method => { c with byMethod := AclIndex.push c.byMethod method rule }
  | none, none => { c with globalDefault := c.globalDefault ++ [rule] }

def candidates (c : CompiledAcl) (topic method : JsString) : List AccessRule :=
  AclIndex.lookup c.byTopicMethod (topicMethodKey topic method)
    ++ AclIndex.lookup c.byTopic topic ++
    AclIndex.lookup c.byMethod method ++ c.globalDefault

end CompiledAcl

def compile (config : AccessControlConfig) : CompiledAcl :=
  let hasRules := 0 < (config.rules.getD []).length
  (config.rules.getD []).foldl CompiledAcl.add
    { allowAllByDefault := config.allowAllByDefault.getD !hasRules }

def listHasValue (list : Option (List JsString)) (value : Option JsString) : Bool :=
  match list with
  | none => false
  | some list =>
    if list.length = 0 then false
    else if star ∈ list then true
    else
      match JsString.truthy value with
      | none => false
      | some value => value ∈ list

/-- The rule lets the caller in, if no other one denies it. -/
def AccessRule.lets (rule : AccessRule) (callerService : Option JsString) : Bool :=
  match rule.allow with
  | some allow => if 0 < allow.length then listHasValue (some allow) callerService else true
  | none => true

def isAccessAllowed (config : Option AccessControlConfig) (topic method : JsString)
    (callerService : Option JsString) : Bool :=
  match config with
  | none => true
  | some config =>
    let compiled := compile config
    let candidates := compiled.candidates topic method
    if candidates.length = 0 then
      compiled.allowAllByDefault || (lit "nevo.").isPrefixOf method
    else if candidates.any fun rule => listHasValue rule.deny callerService then false
    else candidates.any (·.lets callerService)

/-! ## The list of rules -/

/-- A field of a rule that is absent, empty or `*` stands for everything. -/
def covers (field : Option JsString) (name : JsString) : Bool :=
  field = none || field = some [] || field = some star || field = some name

/-- The list has `*` or the caller; a caller that is absent or empty is in no list by itself. -/
def lists (list : Option (List JsString)) (caller : Option JsString) : Bool :=
  (list.getD []).any fun entry => entry = star || (entry ≠ [] && caller = some entry)

/-- What the rules say about a request. -/
def accessByRules (config : AccessControlConfig) (topic method : JsString)
    (caller : Option JsString) : Bool :=
  let rules := config.rules.getD []
  let matching := rules.filter fun rule => covers rule.topic topic && covers rule.method method
  if matching.isEmpty then
    config.allowAllByDefault.getD rules.isEmpty || (lit "nevo.").isPrefixOf method
  else
    !(matching.any fun rule => lists rule.deny caller) &&
      matching.any fun rule => (rule.allow.getD []).isEmpty || lists rule.allow caller

/-! ## What a request finds -/

/-- The rule is found under one of the keys of the request. -/
def AccessRule.Found (rule : AccessRule) (topic method : JsString) : Prop :=
  match named rule.topic, named rule.method with
  | some t, some m => topicMethodKey t m = topicMethodKey topic method
  | some t, none => t = topic
  | none, some m => m = method
  | none, none => True

theorem CompiledAcl.mem_add (c : CompiledAcl) (rule r : AccessRule) (topic method : JsString) :
    r ∈ (c.add rule).candidates topic method ↔
      r ∈ c.candidates topic method ∨ r = rule ∧ rule.Found topic method := by
  unfold CompiledAcl.add CompiledAcl.candidates AccessRule.Found
  cases named rule.topic <;> cases named rule.method <;>
    simp only [mem_append, AclIndex.mem_lookup_push, mem_singleton, and_true] <;> tauto

theorem mem_candidates (config : AccessControlConfig) (topic method : JsString) (r : AccessRule) :
    r ∈ (compile config).candidates topic method ↔
      r ∈ config.rules.getD [] ∧ r.Found topic method := by
  have hfold : ∀ (rules : List AccessRule) (c : CompiledAcl),
      r ∈ (rules.foldl CompiledAcl.add c).candidates topic method ↔
        r ∈ c.candidates topic method ∨ r ∈ rules ∧ r.Found topic method := by
    intro rules
    induction rules with
    | nil => simp
    | cons rule rules ih =>
      intro c
      rw [foldl_cons, ih, CompiledAcl.mem_add, mem_cons]
      constructor
      · rintro ((h | ⟨rfl, h⟩) | ⟨hr, h⟩)
        · exact .inl h
        · exact .inr ⟨.inl rfl, h⟩
        · exact .inr ⟨.inr hr, h⟩
      · rintro (h | ⟨rfl | hr, h⟩)
        · exact .inl (.inl h)
        · exact .inl (.inr ⟨rfl, h⟩)
        · exact .inr ⟨hr, h⟩
  rw [compile, hfold]
  exact or_iff_right not_mem_nil

theorem allowAllByDefault_compile (config : AccessControlConfig) :
    (compile config).allowAllByDefault =
      config.allowAllByDefault.getD (config.rules.getD []).isEmpty := by
  have hfold : ∀ (rules : List AccessRule) (c : CompiledAcl),
      (rules.foldl CompiledAcl.add c).allowAllByDefault = c.allowAllByDefault := by
    intro rules
    induction rules with
    | nil => exact fun _ => rfl
    | cons rule rules ih =>
      intro c
      rw [foldl_cons, ih, CompiledAcl.add]
      split <;> rfl
  rw [compile, hfold]
  cases config.rules.getD [] <;> rfl

theorem covers_iff (field : Option JsString) (name : JsString) :
    covers field name ↔ ∀ s, named field = some s → s = name := by
  unfold covers named
  cases field with
  | none => simp
  | some s =>
    by_cases hempty : s = []
    · simp [hempty]
    by_cases hstar : s = star
    · simp [hstar, Option.filter]
    simp [hempty, hstar, Option.filter]

/-- The topic and the method that a rule is written for. -/
def AccessRule.scope (rule : AccessRule) : Option JsString × Option JsString :=
  (rule.topic, rule.method)

/-- The scope names a topic and a method whose key is that of the request, and they are others. -/
def collides (scope : Option JsString × Option JsString) (topic method : JsString) : Bool :=
  match named scope.1, named scope.2 with
  | some t, some m =>
    topicMethodKey t m = topicMethodKey topic method && !(decide (t = topic) && decide (m = method))
  | _, _ => false

theorem found_iff (rule : AccessRule) (topic method : JsString) :
    rule.Found topic method ↔
      (covers rule.topic topic && covers rule.method method) ∨
        collides rule.scope topic method := by
  rw [Bool.and_eq_true, covers_iff, covers_iff]
  unfold AccessRule.Found collides AccessRule.scope
  cases named rule.topic with
  | none => cases named rule.method <;> simp
  | some t =>
    cases named rule.method with
    | none => simp
    | some m =>
      by_cases hsame : t = topic ∧ m = method
      · obtain ⟨rfl, rfl⟩ := hsame
        simp
      · simp only [Option.some.injEq, forall_eq', hsame, false_or, Bool.and_eq_true,
          decide_eq_true_eq, Bool.not_eq_true', Bool.and_eq_false_iff, decide_eq_false_iff_not]
        rw [not_and_or] at hsame
        exact (and_iff_left hsame).symm

theorem not_collides_of_covers {rule : AccessRule} {topic method : JsString}
    (h : covers rule.topic topic && covers rule.method method) :
    collides rule.scope topic method = false := by
  rw [Bool.and_eq_true, covers_iff, covers_iff] at h
  unfold collides AccessRule.scope
  cases htopic : named rule.topic with
  | none => rfl
  | some t =>
    cases hmethod : named rule.method with
    | none => rfl
    | some m => simp [h.1 t htopic, h.2 m hmethod]

/-! ## The decision -/

theorem listHasValue_eq (list : Option (List JsString)) (value : Option JsString) :
    listHasValue list value = lists list value := by
  rw [Bool.eq_iff_iff]
  unfold lists
  rw [any_eq_true]
  cases list with
  | none =>
    show false = true ↔ _
    simp
  | some list =>
    unfold listHasValue
    dsimp only
    by_cases hempty : list.length = 0
    · rw [if_pos hempty, length_eq_zero_iff.mp hempty]
      simp
    rw [if_neg hempty]
    by_cases hstar : star ∈ list
    · rw [if_pos hstar]
      exact iff_of_true rfl ⟨star, hstar, by simp⟩
    rw [if_neg hstar]
    -- without a `*` only the caller itself can be in the list
    have hentry (entry : JsString) (h : entry ∈ list) :
        (entry = star || (entry ≠ [] && value = some entry)) ↔
          JsString.truthy value = some entry := by
      have hne : entry ≠ star := fun heq => hstar (heq ▸ h)
      cases value with
      | none => simp [hne, JsString.truthy]
      | some v => simp [hne, JsString.truthy, Option.filter]; grind
    cases hvalue : JsString.truthy value with
    | none =>
      refine iff_of_false Bool.false_ne_true ?_
      rintro ⟨entry, hmem, h⟩
      rw [(hentry entry hmem), hvalue] at h
      cases h
    | some v =>
      dsimp only
      rw [decide_eq_true_iff]
      constructor
      · exact fun h => ⟨v, h, (hentry v h).mpr hvalue⟩
      · rintro ⟨entry, hmem, h⟩
        rw [hentry entry hmem, hvalue] at h
        cases h
        exact hmem

theorem lets_eq (rule : AccessRule) (caller : Option JsString) :
    rule.lets caller = ((rule.allow.getD []).isEmpty || lists rule.allow caller) := by
  unfold AccessRule.lets
  cases rule.allow with
  | none => rfl
  | some allow =>
    cases allow with
    | nil => rfl
    | cons entry allow => exact listHasValue_eq (some (entry :: allow)) caller

/-- The decision of some rules, or `otherwise` if there are none. -/
def decideBy (rules : List AccessRule) (otherwise : Bool) (caller : Option JsString) : Bool :=
  if rules.isEmpty then otherwise
  else
    !(rules.any fun rule => lists rule.deny caller) &&
      rules.any fun rule => (rule.allow.getD []).isEmpty || lists rule.allow caller

theorem decideBy_congr {rules rules' : List AccessRule} (h : ∀ r, r ∈ rules ↔ r ∈ rules')
    (otherwise : Bool) (caller : Option JsString) :
    decideBy rules otherwise caller = decideBy rules' otherwise caller := by
  have hempty : rules.isEmpty = rules'.isEmpty := by
    rw [Bool.eq_iff_iff, List.isEmpty_iff, List.isEmpty_iff, List.eq_nil_iff_forall_not_mem,
      eq_nil_iff_forall_not_mem]
    exact forall_congr' fun r => not_congr (h r)
  have hany (p : AccessRule → Bool) : rules.any p = rules'.any p := by
    rw [Bool.eq_iff_iff, any_eq_true, any_eq_true]
    exact exists_congr fun r => and_congr_left fun _ => h r
  unfold decideBy
  rw [hempty, hany, hany]

theorem isAccessAllowed_eq (config : AccessControlConfig) (topic method : JsString)
    (caller : Option JsString) : isAccessAllowed (some config) topic method caller =
      decideBy ((compile config).candidates topic method)
        (config.allowAllByDefault.getD (config.rules.getD []).isEmpty ||
          (lit "nevo.").isPrefixOf method) caller := by
  unfold isAccessAllowed decideBy
  dsimp only
  rw [allowAllByDefault_compile]
  cases (compile config).candidates topic method with
  | nil => rfl
  | cons rule rules =>
    rw [length_cons, if_neg (Nat.succ_ne_zero _), isEmpty_cons,
      if_neg Bool.false_ne_true]
    simp only [listHasValue_eq, lets_eq]
    cases (rule :: rules).any fun rule => lists rule.deny caller <;> rfl

theorem isAccessAllowed_of_not_collides {config : AccessControlConfig} {topic method : JsString}
    (h : ∀ rule ∈ config.rules.getD [], ¬ collides rule.scope topic method)
    (caller : Option JsString) : isAccessAllowed (some config) topic method caller =
      accessByRules config topic method caller := by
  rw [isAccessAllowed_eq]
  refine decideBy_congr (fun r => ?_) _ caller
  rw [mem_candidates, mem_filter]
  refine and_congr_right fun hr => ?_
  rw [found_iff]
  exact or_iff_left (h r hr)

/-- A rule denies everybody if it collides, and lets everybody in if it does not. -/
def trap (topic method : JsString) (scope : Option JsString × Option JsString) :
    AccessRule where
  topic := scope.1
  method := scope.2
  deny := if collides scope topic method then some [star] else none

def trapConfig (topic method : JsString)
    (scopes : List (Option JsString × Option JsString)) : AccessControlConfig where
  rules := some (scopes.map (trap topic method))
  allowAllByDefault := some true

theorem accessByRules_trapConfig (topic method : JsString)
    (scopes : List (Option JsString × Option JsString)) :
    accessByRules (trapConfig topic method scopes) topic method none := by
  show decideBy _ (true || _) none
  unfold decideBy
  split
  · rfl
  next hsome =>
    rw [Bool.and_eq_true, Bool.not_eq_true', any_eq_false, any_eq_true]
    have htrap (rule : AccessRule) (hmem : rule ∈ ((trapConfig topic method scopes).rules.getD
        []).filter fun rule => covers rule.topic topic && covers rule.method method) :
        rule.deny = none ∧ rule.allow = none := by
      obtain ⟨hrule, hcovers⟩ := mem_filter.mp hmem
      obtain ⟨scope, -, rfl⟩ := mem_map.mp hrule
      have hnot : ¬ collides (trap topic method scope).scope topic method := by
        rw [not_collides_of_covers hcovers]
        exact Bool.false_ne_true
      exact ⟨if_neg hnot, rfl⟩
    constructor
    · intro rule hrule
      rw [(htrap rule hrule).1]
      exact Bool.false_ne_true
    · obtain ⟨rule, hrule⟩ := exists_mem_of_ne_nil _ (mt isEmpty_iff.mpr hsome)
      refine ⟨rule, hrule, ?_⟩
      rw [(htrap rule hrule).2]
      rfl

theorem isAccessAllowed_trapConfig {topic method : JsString}
    {scopes : List (Option JsString × Option JsString)} {scope : Option JsString × Option JsString}
    (hmem : scope ∈ scopes) (hcollides : collides scope topic method) :
    isAccessAllowed (some (trapConfig topic method scopes)) topic method none = false := by
  have hrule : trap topic method scope ∈
      (compile (trapConfig topic method scopes)).candidates topic method := by
    rw [mem_candidates]
    exact ⟨mem_map_of_mem hmem, (found_iff _ _ _).mpr (.inr hcollides)⟩
  rw [isAccessAllowed_eq, decideBy, if_neg, Bool.and_eq_false_iff]
  · left
    rw [Bool.not_eq_false', any_eq_true]
    refine ⟨_, hrule, ?_⟩
    have hdeny : (trap topic method scope).deny = some [star] := if_pos hcollides
    rw [hdeny]
    simp [lists]
  · rw [List.isEmpty_iff]
    exact ne_nil_of_mem hrule

/-- For every list of topics and methods that rules are written for, and every request: the compiled
rules decide like the list of rules, whatever they allow and deny, whatever the default is and
whoever calls, if and only if no rule collides with the request. -/
theorem compiled_acl_iff (scopes : List (Option JsString × Option JsString))
    (topic method : JsString) :
    (∀ (config : AccessControlConfig) (caller : Option JsString),
      (config.rules.getD []).map AccessRule.scope = scopes →
      isAccessAllowed (some config) topic method caller =
        accessByRules config topic method caller) ↔
    ∀ scope ∈ scopes, ¬ collides scope topic method := by
  constructor
  · intro hall scope hmem hcollides
    have hscopes : ((trapConfig topic method scopes).rules.getD []).map
      AccessRule.scope = scopes := by
      show (scopes.map (trap topic method)).map AccessRule.scope = scopes
      rw [map_map]
      exact map_id scopes
    have hsame := hall (trapConfig topic method scopes) none hscopes
    rw [isAccessAllowed_trapConfig hmem hcollides, accessByRules_trapConfig] at hsame
    cases hsame
  · rintro hnone config caller rfl
    exact isAccessAllowed_of_not_collides
      (fun rule hrule => hnone rule.scope (mem_map_of_mem hrule)) caller

/-- The only rule is for the topic `a::b` and the method `c`. -/
def ambiguousConfig : AccessControlConfig where
  rules := some [{ topic := some (lit "a::b"), method := some (lit "c"), allow := some [lit "x"] }]

/-- The caller `x` gets at the method `b::c` of the topic `a`, which no rule is about. -/
theorem ambiguous_key_allows :
    isAccessAllowed (some ambiguousConfig) (lit "a") (lit "b::c") (some (lit "x")) = true ∧
      accessByRules ambiguousConfig (lit "a") (lit "b::c") (some (lit "x")) = false := by
  decide +kernel

end NevoMessaging
