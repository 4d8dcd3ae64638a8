import Mathlib.Data.List.Basic
/-!
# Role policies and narrowed principals

Model of `tool/rbac.go` and of the principal part of `identity.go`.
-/
namespace GudeAgents.Access
open List
abbrev Attrs : Type := String → Option String

structure Principal where
  id : String
  roles : List String
  attrs : Attrs

structure Context where
  principal : Option Principal

def Context.withPrincipal (c : Context) (p : Principal) : Context :=
  { c with principal := some p }
def Context.withNarrowedRoles (c : Context) (allowed : List String) : Context :=
  match c.principal with
  | none => c
  | some p => c.withPrincipal { p with roles := p.roles.filter (· ∈ allowed) }

/-- `rolePolicy`. The sets of roles are listed; an empty list is a nil or empty map. -/
structure RolePolicy where
  allowRoles : List String := []
  denyRoles : List String := []
  attrConditions : List (Attrs → Bool) := []
  denyConditions : List (Attrs → Bool) := []

namespace RolePolicy
def allowedRoles (p : RolePolicy) (roles : List String) : Bool :=
  if roles.any (· ∈ p.denyRoles) then false
  else if p.allowRoles.length = 0 then true
  else roles.any (· ∈ p.allowRoles)
def allowedAttrs (p : RolePolicy) (attrs : Attrs) : Bool :=
  if p.denyConditions.any (fun cond => cond attrs) then false
  else p.attrConditions.all fun cond => cond attrs
def allowedWithAttrs (p : RolePolicy) (roles : List String) (attrs : Attrs) : Bool :=
  if p.allowedRoles roles then p.allowedAttrs attrs else false
end RolePolicy
structure Tool where
  rolePolicy : Option RolePolicy := none

def Tool.allowedForPrincipal (t : Tool) (hasPrincipal : Bool) (roles : List String)
    (attrs : Attrs) : Bool :=
  match t.rolePolicy with
  | none => true
  | some policy => if hasPrincipal then policy.allowedWithAttrs roles attrs else false

/-- The check that tool visibility and the tool pipeline make on the principal of a context; a
context without one passes the zero principal. -/
def Tool.allowedIn (t : Tool) (c : Context) : Bool :=
  match c.principal with
  | none => t.allowedForPrincipal false [] fun _ => none
  | some p => t.allowedForPrincipal true p.roles p.attrs

inductive Rule where
  | allowRoles (roles : List String)
  | denyRoles (roles : List String)
  | allowWhen (cond : Attrs → Bool)
  | denyWhen (cond : Attrs → Bool)

def Rule.extend (policy : RolePolicy) : Rule → RolePolicy
  | .allowRoles roles => { policy with allowRoles := policy.allowRoles ++ roles }
  | .denyRoles roles => { policy with denyRoles := policy.denyRoles ++ roles }
  | .allowWhen cond => { policy with attrConditions := policy.attrConditions ++ [cond] }
  | .denyWhen cond => { policy with denyConditions := policy.denyConditions ++ [cond] }

def Rule.apply (t : Tool) (rule : Rule) : Tool :=
  { t with rolePolicy := some (rule.extend (t.rolePolicy.getD {})) }
def newTool (rules : List Rule) : Tool :=
  rules.foldl Rule.apply {}
def policyOf (rules : List Rule) : RolePolicy :=
  rules.foldl Rule.extend {}

theorem foldl_apply_some (rules : List Rule) (policy : RolePolicy) :
    rules.foldl Rule.apply { rolePolicy := some policy } =
      { rolePolicy := some (rules.foldl Rule.extend policy) } := by
  induction rules generalizing policy with
  | nil => rfl
  | cons rule rules ih =>
    exact ih (rule.extend policy)

theorem newTool_cons (rule : Rule) (rules : List Rule) :
    (newTool (rule :: rules)).rolePolicy = some (policyOf (rule :: rules)) := by
  rw [newTool,policyOf,foldl_cons,foldl_cons]
  show (rules.foldl Rule.apply { rolePolicy := some (rule.extend {}) }).rolePolicy = _
  rw [foldl_apply_some]

def Rule.denied : Rule → List String
  | .denyRoles roles => roles
  | _ => []
def Rule.permitted : Rule → List String
  | .allowRoles roles => roles
  | _ => []
def Rule.required : Rule → List (Attrs → Bool)
  | .allowWhen cond => [cond]
  | _ => []
def Rule.refused : Rule → List (Attrs → Bool)
  | .denyWhen cond => [cond]
  | _ => []
def Denies (rules : List Rule) (role : String) : Prop :=
  ∃ rule ∈ rules, role ∈ rule.denied
def Permits (rules : List Rule) (role : String) : Prop :=
  ∃ rule ∈ rules, role ∈ rule.permitted
def MeetsConditions (rules : List Rule) (attrs : Attrs) : Prop :=
  (∀ rule ∈ rules, ∀ cond ∈ rule.refused, cond attrs = false) ∧
    ∀ rule ∈ rules, ∀ cond ∈ rule.required, cond attrs = true

theorem mem_field_policyOf {α : Type} (field : RolePolicy → List α) (added : Rule → List α)
    (hempty : field {} = [])
    (hextend : ∀ policy rule, field (Rule.extend policy rule) = field policy ++ added rule)
    (rules : List Rule) (x : α) : x ∈ field (policyOf rules) ↔ ∃ rule ∈ rules, x ∈ added rule := by
  have hfold : ∀ policy, field (rules.foldl Rule.extend policy) =
      field policy ++ rules.flatMap added := by
    induction rules with
    | nil => simp
    | cons rule rules ih =>
      intro policy
      rw [foldl_cons,ih,hextend,flatMap_cons,append_assoc]
  rw [policyOf,hfold,hempty,nil_append,mem_flatMap]

section
variable (rules : List Rule)
include rules
@[simp] theorem mem_denyRoles_policyOf (role : String) :
    role ∈ (policyOf rules).denyRoles ↔ Denies rules role :=
  mem_field_policyOf RolePolicy.denyRoles Rule.denied rfl
    (fun _ rule => by cases rule <;> simp [Rule.extend,Rule.denied]) rules role

@[simp] theorem mem_allowRoles_policyOf (role : String) :
    role ∈ (policyOf rules).allowRoles ↔ Permits rules role :=
  mem_field_policyOf RolePolicy.allowRoles Rule.permitted rfl
    (fun _ rule => by cases rule <;> simp [Rule.extend,Rule.permitted]) rules role

@[simp] theorem mem_attrConditions_policyOf (cond : Attrs → Bool) :
    cond ∈ (policyOf rules).attrConditions ↔ ∃ rule ∈ rules, cond ∈ rule.required :=
  mem_field_policyOf RolePolicy.attrConditions Rule.required rfl
    (fun _ rule => by cases rule <;> simp [Rule.extend,Rule.required]) rules cond

@[simp] theorem mem_denyConditions_policyOf (cond : Attrs → Bool) :
    cond ∈ (policyOf rules).denyConditions ↔ ∃ rule ∈ rules, cond ∈ rule.refused :=
  mem_field_policyOf RolePolicy.denyConditions Rule.refused rfl
    (fun _ rule => by cases rule <;> simp [Rule.extend,Rule.refused]) rules cond

theorem allowedRoles_policyOf (roles : List String) : (policyOf rules).allowedRoles roles = true ↔
      (∀ role ∈ roles, ¬ Denies rules role) ∧
        ((∃ role, Permits rules role) → ∃ role ∈ roles, Permits rules role) := by
  have hempty : (policyOf rules).allowRoles.length = 0 ↔ ¬ ∃ role, Permits rules role := by
    rw [length_eq_zero_iff,eq_nil_iff_forall_not_mem]
    simp
  rw [RolePolicy.allowedRoles]
  by_cases hdenied : ∃ role ∈ roles, Denies rules role
  · rw [if_pos (by simpa using hdenied)]
    simp only [Bool.false_eq_true,false_iff,not_and]
    intro hnone
    obtain ⟨role,hrole,hden⟩ := hdenied
    exact absurd hden (hnone role hrole)
  · rw [if_neg (by simpa using hdenied)]
    have hnone : ∀ role ∈ roles, ¬ Denies rules role :=
      fun role hrole hden => hdenied ⟨role,hrole,hden⟩
    by_cases hsome : ∃ role, Permits rules role
    · rw [if_neg (fun h => hempty.mp h hsome)]
      simpa [hsome] using fun _ _ _ => hnone
    · rw [if_pos (hempty.mpr hsome)]
      simpa [hsome] using hnone

theorem allowedAttrs_policyOf (attrs : Attrs) :
    (policyOf rules).allowedAttrs attrs = true ↔ MeetsConditions rules attrs := by
  rw [RolePolicy.allowedAttrs,MeetsConditions]
  by_cases hrefused : ∃ rule ∈ rules, ∃ cond ∈ rule.refused, cond attrs = true
  · obtain ⟨rule,hrule,cond,hcond,hholds⟩ := hrefused
    rw [if_pos (any_eq_true.mpr
      ⟨cond,(mem_denyConditions_policyOf rules cond).mpr ⟨rule,hrule,hcond⟩,hholds⟩)]
    simp only [Bool.false_eq_true,false_iff,not_and]
    intro hnone
    rw [hnone rule hrule cond hcond] at hholds
    cases hholds
  · have hnone : ∀ rule ∈ rules, ∀ cond ∈ rule.refused, cond attrs = false := by
      intro rule hrule cond hcond
      by_contra hholds
      exact hrefused ⟨rule,hrule,cond,hcond,by simpa using hholds⟩
    have hclear : ¬ (policyOf rules).denyConditions.any (fun cond => cond attrs) = true := by
      intro hany
      obtain ⟨cond,hcond,hholds⟩ := any_eq_true.mp hany
      obtain ⟨rule,hrule,hin⟩ := (mem_denyConditions_policyOf rules cond).mp hcond
      exact hrefused ⟨rule,hrule,cond,hin,hholds⟩
    rw [if_neg hclear,all_eq_true]
    simp only [mem_attrConditions_policyOf]
    constructor
    · intro hall
      exact ⟨hnone,fun rule hrule cond hcond => hall cond ⟨rule,hrule,hcond⟩⟩
    · intro hmeets cond hcond
      obtain ⟨rule,hrule,hin⟩ := hcond
      exact hmeets.2 rule hrule cond hin

theorem allowedForPrincipal_iff (roles : List String) (attrs : Attrs) :
    (newTool rules).allowedForPrincipal true roles attrs = true ↔
      (∀ role ∈ roles, ¬ Denies rules role) ∧
        ((∃ role, Permits rules role) → ∃ role ∈ roles, Permits rules role) ∧
        MeetsConditions rules attrs := by
  cases rules with
  | nil => simp [newTool,Tool.allowedForPrincipal,Denies,Permits,MeetsConditions]
  | cons rule rules =>
    rw [Tool.allowedForPrincipal,newTool_cons]
    simp only [if_true,RolePolicy.allowedWithAttrs]
    rw [← and_assoc,← allowedRoles_policyOf,← allowedAttrs_policyOf]
    cases (policyOf (rule :: rules)).allowedRoles roles <;> simp
end
/-- Dropping the roles outside `allowed` does not lift the last denial: if the principal holds a
denied role then one is kept, or the kept roles do not reach the allow list, or the attributes
fail the conditions. -/
def DenialSurvives (rules : List Rule) (allowed : List String) (p : Principal) : Prop :=
  (∃ role ∈ p.roles, Denies rules role) → (∃ role ∈ p.roles, role ∈ allowed ∧ Denies rules role) ∨
      ((∃ role, Permits rules role) ∧ ∀ role ∈ p.roles, role ∈ allowed → ¬ Permits rules role) ∨
      ¬ MeetsConditions rules p.attrs

theorem allowedIn_narrowed (rules : List Rule) (allowed : List String) (p : Principal) :
    (newTool rules).allowedIn (Context.withNarrowedRoles ⟨some p⟩ allowed) = true ↔
      (∀ role ∈ p.roles, role ∈ allowed → ¬ Denies rules role) ∧
        ((∃ role, Permits rules role) → ∃ role ∈ p.roles, role ∈ allowed ∧ Permits rules role) ∧
        MeetsConditions rules p.attrs := by
  show (newTool rules).allowedForPrincipal true (p.roles.filter (· ∈ allowed)) p.attrs = true ↔ _
  rw [allowedForPrincipal_iff]
  simp [and_assoc]

theorem narrowing_grants_iff (rules : List Rule) (allowed : List String) (p : Principal) :
    ((newTool rules).allowedIn (Context.withNarrowedRoles ⟨some p⟩ allowed) = true →
        (newTool rules).allowedIn ⟨some p⟩ = true) ↔ DenialSurvives rules allowed p := by
  have hwhole : (newTool rules).allowedIn ⟨some p⟩ = true ↔ _ :=
    allowedForPrincipal_iff rules p.roles p.attrs
  rw [allowedIn_narrowed,hwhole,DenialSurvives]
  constructor
  · intro hkeeps hdenied
    by_contra hnone
    simp only [not_or,not_and,not_not] at hnone
    obtain ⟨hkept,hreach,hconds⟩ := hnone
    obtain ⟨role,hrole,hden⟩ := hdenied
    have hpermits : (∃ role, Permits rules role) →
        ∃ role ∈ p.roles, role ∈ allowed ∧ Permits rules role := by
      intro hsome
      by_contra hno
      apply hreach hsome
      intro role hrole hin hper
      exact hno ⟨role,hrole,hin,hper⟩
    have hnarrowed : ∀ role ∈ p.roles, role ∈ allowed → ¬ Denies rules role :=
      fun role hrole hin hden => hkept ⟨role,hrole,hin,hden⟩
    exact (hkeeps ⟨hnarrowed,hpermits,hconds⟩).1 role hrole hden
  · intro hsurvives hnarrowed
    obtain ⟨hkept,hreach,hconds⟩ := hnarrowed
    refine ⟨?_,?_,hconds⟩
    · intro role hrole hden
      -- A denied role must have been dropped, and nothing else refuses the narrowed principal.
      rcases hsurvives ⟨role,hrole,hden⟩ with ⟨kept,hk,hin,hdk⟩ | ⟨hsome,hno⟩ | hfail
      · exact hkept kept hk hin hdk
      · obtain ⟨kept,hk,hin,hper⟩ := hreach hsome
        exact hno kept hk hin hper
      · exact hfail hconds
    · intro hsome
      obtain ⟨role,hrole,-,hper⟩ := hreach hsome
      exact ⟨role,hrole,hper⟩

/-- In every context, narrowing never grants access to a tool exactly when it does not drop the
last denial of the context's principal. -/
theorem narrowed_access_implies_access_iff (rules : List Rule) (allowed : List String)
    (c : Context) :
    ((newTool rules).allowedIn (c.withNarrowedRoles allowed) = true →
        (newTool rules).allowedIn c = true) ↔
      ∀ p, c.principal = some p → DenialSurvives rules allowed p := by
  obtain ⟨principal⟩ := c
  cases principal with
  | none => simp [Context.withNarrowedRoles]
  | some p =>
    rw [narrowing_grants_iff]
    simp

theorem narrowed_access_without_access : (newTool [.denyRoles ["guest"]]).allowedIn
        (Context.withNarrowedRoles ⟨some ⟨"u1",["guest","admin"],fun _ => none⟩⟩ ["admin"]) =
      true ∧
    (newTool [.denyRoles ["guest"]]).allowedIn
        ⟨some ⟨"u1",["guest","admin"],fun _ => none⟩⟩ = false := by
  decide
end GudeAgents.Access
