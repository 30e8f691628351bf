/-
Building that never ends.

A template is built while its name is reserved, so building comes back from a reference if one of
the names that it goes through is known by then.  Where each of a sequence of requests demands the
template of the next one (`Demands`), and no two of their names are the same, no depth of nesting
is enough (`endless`).
-/
import SchemaForm.Proofs.Layout.Returns
import SchemaForm.Proofs.Layout.Sizes

namespace SchemaForm

open Build

namespace Generate

variable {ctx : Setup} {r : Request} {P : Request → Prop} {p q : Progress} {schema : Json}
  {name type : String} {mapped : Mapped Node}

/-- Building what is requested goes through the template of the name, unless that is known, for a
request of the kind. -/
def Demands (ctx : Setup) (r : Request) (name : String) (P : Request → Prop) : Prop :=
  ∀ depth p mapped q, (buildNode ctx depth r).Runs p mapped q → p.templates.knows name = false →
    ∃ r', P r' ∧ ∃ less < depth, ∃ p' mapped' q', (buildNode ctx less r').Runs p' mapped' q' ∧
      p'.templates = p.templates.reserve name

theorem knows_reserve {l : Library} {other : String} (hne : name ≠ other) :
    (l.reserve name).knows other = l.knows other := by
  rw [Library.knows, Table.has, Library.reserve, Table.get?_insert, if_neg hne]
  rfl

/-- **Requests that demand ever new templates are never done.** -/
theorem endless {At : Nat → Request → Prop} {names : Nat → String}
    (hdemands : ∀ n r, At n r → Demands ctx r (names n) (At (n + 1)))
    (hnames : Function.Injective names) {n : Nat} (hr : At n r)
    (hnew : ∀ m, n ≤ m → p.templates.knows (names m) = false) (depth : Nat) :
    ¬(buildNode ctx depth r).Runs p mapped q := by
  -- By induction on the depth: the next template is built with one less.
  induction depth using Nat.strong_induction_on generalizing n r p mapped q with
  | _ depth ih =>
      intro hrun
      obtain ⟨r', hr', less, hless, p', mapped', q', hrun', hp'⟩ :=
        hdemands n r hr depth p mapped q hrun (hnew n (Nat.le_refl n))
      refine ih less hless hr' (fun m hm => ?_) hrun'
      have hne : names n ≠ names m := fun he => by
        have heq := hnames he
        omega
      rw [hp', knows_reserve hne]
      exact hnew m (Nat.le_of_succ_le hm)

/-- How a described schema is built: its control is completed one level down. -/
theorem runs_described (hschema : ctx.resolved.schemaAt? r.schemaPointer = some schema)
    (hdescribed : isDescribed schema = true) (htype : Schema.controlType? schema [] = some type)
    {depth : Nat} (h : (buildNode ctx depth r).Runs p mapped q) :
    ∃ less c s, depth = less + 1 ∧ s.templates = p.templates ∧ c.type = type ∧
      c.dataType = dataType? schema ∧
      (complete ctx (buildNode ctx less) r schema c).Runs s mapped q := by
  cases depth with
  | zero => exact absurd h not_runs_failure
  | succ less =>
      have hfound : (ctx.resolved.schemaAt? r.schemaPointer).filter isDescribed = some schema := by
        rw [hschema, Option.filter_some, if_pos hdescribed]
      simp only [buildNode, buildOne, hfound, htype] at h
      obtain ⟨id, s, hs, hcomplete⟩ := runs_buildSchema h
      refine ⟨less, _, _, rfl, ?_, ?_, controlFor_dataType .., hcomplete⟩
      · rcases hs with ⟨-, -, rfl⟩ | ⟨-, -, rfl⟩ <;> rfl
      · simp only [controlFor, withTitle]
        split <;> rfl

/-- An object demands what its first property does. -/
theorem demands_property (hschema : ctx.resolved.schemaAt? r.schemaPointer = some schema)
    (hdescribed : isDescribed schema = true) (htype : Schema.controlType? schema [] = some type)
    (hdata : dataType? schema = some "object") {properties : Members} {key : String}
    {rest : List String} (hproperties : (schema.get? "properties").bind Json.obj? = some properties)
    (hnames : propertyNames schema properties = key :: rest)
    (h : ∀ layoutPointer, Demands ctx (propertyRequest r layoutPointer key) name P) :
    Demands ctx r name P := by
  intro depth p mapped q hrun hnew
  obtain ⟨less, c, s, rfl, hs, -, hc, hcomplete⟩ := runs_described hschema hdescribed htype hrun
  simp only [complete, hc.trans hdata, runs_bind] at hcomplete
  obtain ⟨children, _, hchildren, -⟩ := hcomplete
  simp only [buildProperties, hproperties, hnames, List.mapM_cons, runs_bind] at hchildren
  obtain ⟨_, _, ⟨nodes, _, hfirst, -⟩, -⟩ := hchildren
  obtain ⟨made, s', -, hproperty, -⟩ := runs_buildProperty hfirst
  obtain ⟨r', hr', less', hless, p', mapped', q', hrun', hp'⟩ :=
    h _ less s made s' hproperty (hs ▸ hnew)
  exact ⟨r', hr', less', Nat.lt_succ_of_lt hless, p', mapped', q', hrun', hs ▸ hp'⟩

/-- An array without fixed positions demands the template of its items. -/
theorem demands_list (hschema : ctx.resolved.schemaAt? r.schemaPointer = some schema)
    (hdescribed : isDescribed schema = true) (htype : Schema.controlType? schema [] = some type)
    (hdata : dataType? schema = some "array") (hboxes : type.startsWith "checkboxes" = false)
    (htuple : (schema.get? "items").bind Json.arr? = none) {keyword : String}
    (hkeyword : listKeyword? schema = some keyword)
    (h : ∀ layoutPointer removable, P (itemTemplate r (siteAt ctx r layoutPointer) .list removable
      (ctx.schemaKey (r.schemaPointer ++ "/" ++ keyword)) (Pointer.anyItem r.dataPointer))) :
    Demands ctx r (ctx.dataKey (Pointer.anyItem r.fullPointer)) P := by
  intro depth p mapped q hrun hnew
  obtain ⟨less, c, s, rfl, hs, rfl, hc, hcomplete⟩ := runs_described hschema hdescribed htype hrun
  simp only [complete, hc.trans hdata, hboxes, Bool.false_eq_true, if_false, runs_bind]
    at hcomplete
  obtain ⟨n, _, harray, -⟩ := hcomplete
  obtain ⟨site, items, made, s', rfl, hitems, -, -, rfl, hlist⟩ := runs_buildArray harray
  -- Without fixed positions nothing is built before the template.
  obtain rfl : s' = s := by
    rcases runs_buildTuple hitems with ⟨-, hsame⟩ | ⟨tuple, -, ht, -⟩
    · exact hsame
    · rw [htuple] at ht
      cases ht
  obtain ⟨keyword', hk, hlist⟩ := hlist.resolve_left fun hnone => by
    rw [hkeyword] at hnone
    cases hnone.1
  obtain rfl := Option.some.inj (hk.symm.trans hkeyword)
  obtain ⟨_, _, _, _, u, htemplate, -⟩ := runs_buildList hlist
  have hunknown : s'.templates.knows (ctx.dataKey (Pointer.anyItem r.fullPointer)) = false :=
    hs ▸ hnew
  obtain ⟨-, mapped', q', hbuilt, -⟩ := (runs_ensureTemplate htemplate).resolve_left fun hknown =>
    Bool.false_ne_true (hunknown.symm.trans hknown.1)
  refine ⟨_, h _ _, less, Nat.lt_succ_self less, _, mapped', q', hbuilt, ?_⟩
  exact congrArg (Library.reserve · (ctx.dataKey (Pointer.anyItem r.fullPointer))) hs

end Generate

end SchemaForm
