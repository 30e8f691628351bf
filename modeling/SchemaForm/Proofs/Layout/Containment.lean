/-
Data pointers of parents and children.

In the layout of a whole schema a control is to be bound below its parent.  Where
children are built in place they are, and so are the items that an array copies from a
template built for its own name.  Two things can go wrong: an absolute template, built for
an array elsewhere, is put into a relative one, or a relative template continues a pointer
that is not the generic one of its array.  `Strayed` says that a parent and a child come
from such a copy, behind the place where it was put:

    b is at a or below, or Strayed form n a b

for a control `n` of a compiled form bound to `a`, and one right below it bound to `b`
(`Form.child_below`).  Without references nothing strays (`Form.not_strayed`).
-/
import SchemaForm.Proofs.Layout.Bindings
import SchemaForm.Proofs.Layout.Standing
import SchemaForm.Proofs.Layout.Unreferenced

namespace SchemaForm

namespace Form

open Generate

variable {options : FormOptions} {widgets : Registry} {schema data : Option Json} {form : Form}

/-- The control of an array and one below it, behind some common beginning: an array that
comes up and a place where its items are bound that need not be below it. -/
def Strayed (form : Form) (n : Control) (a b : String) : Prop :=
  n.dataType = some "array" ∧ ∃ site above below, a = site ++ above ∧ b = site ++ below ∧
    Astray form.setup Whole form.progress.templates above below

theorem links_hold (h : compile options widgets schema none data = .ok form) :
    ∀ link ∈ Node.linksAll form.layout,
      Holds form.setup Whole form.progress.templates link.1 link.2 := by
  obtain ⟨built, s, more, -, hbuilt, hmore, hlayout, -, htemplates⟩ := whole_derives h
  have hholding : ∀ n ∈ built, Holding form.setup Whole s.templates n := by
    intro n hn
    rcases hbuilt with hbuilt | hbuilt
    · exact (hbuilt n hn).holds whole_written
    · exact ((hbuilt n hn).holds whole_written).1
  intro link hlink
  rw [hlayout, Node.linksAll_mapAll] at hlink
  obtain ⟨first, hfirst, rfl⟩ := List.mem_map.mp hlink
  obtain ⟨n, hn, hfirst⟩ := Node.mem_linksAll.mp hfirst
  have hholds : Holds form.setup Whole s.templates first.1 first.2 := by
    cases List.mem_append.mp hn with
    | inl hn =>
        obtain ⟨m, hm, rfl⟩ := List.mem_map.mp hn
        exact (hholding m hm).modify (Compose.topControl_dataPointer _)
          (Compose.topControl_keepsPlace _).dataType first hfirst
    | inr hn =>
        rcases hmore with rfl | ⟨id, rfl⟩
        · exact absurd hn List.not_mem_nil
        · obtain rfl := List.mem_singleton.mp hn
          exact absurd hfirst List.not_mem_nil
  rw [htemplates]
  have hdata := Compose.withTitleMap_same (·.dataPointer) (fun _ _ => rfl)
    form.setup.options.flatList
  exact (hholds.mapControls _).congr (hdata _)
    ((Compose.withTitleMap_keepsPlace _).dataType _) (hdata _)

/-- **What a control holds.**  In the layout of a whole schema the data pointer of a
child is at the one of its parent or below, unless it has strayed. -/
theorem child_below (h : compile options widgets schema none data = .ok form) {n c : Control}
    (hlink : (n, c) ∈ Node.linksAll form.layout) {a b : String} (ha : n.dataPointer = some a)
    (hb : c.dataPointer = some b) (hstays : ¬Strayed form n a b) :
    Pointer.covers a b = true := by
  obtain ⟨x, y, hx, hy, hbelow⟩ := links_hold h _ hlink
  obtain rfl : Pointer.ofSegments x = a := Option.some.inj (hx.symm.trans ha)
  obtain rfl : Pointer.ofSegments y = b := Option.some.inj (hy.symm.trans hb)
  rcases hbelow with hprefix | hstrayed
  · exact Pointer.covers_ofSegments.mpr hprefix
  · exact absurd hstrayed hstays

/-- Without references nothing strays. -/
theorem not_strayed (h : compile options widgets schema none data = .ok form)
    (hplain : form.setup.Unreferenced) {n : Control} {a b : String} : ¬Strayed form n a b := by
  rintro ⟨-, site, above, below, -, -, hastray⟩
  cases hastray with
  | foreign hcomes _ hforeign _ _ =>
      rw [hplain.own hcomes] at hforeign
      cases hforeign
  | raw _ _ _ ht hrel =>
      rw [absolute h hplain ht] at hrel
      cases hrel

/-- The data pointers of parents and children in the form of a schema. -/
def boundLinks (schema : Json) : List (Option String × Option String) :=
  match compile {} [] (some schema) none none with
  | .ok form => (Node.linksAll form.layout).map fun link =>
      (link.1.dataPointer, link.2.dataPointer)
  | .error _ => []

theorem mem_boundLinks {schema : Json} {a b : String}
    (h : (some a, some b) ∈ boundLinks schema) :
    ∃ form n c, compile {} [] (some schema) none none = .ok form ∧
      (n, c) ∈ Node.linksAll form.layout ∧ n.dataPointer = some a ∧ c.dataPointer = some b := by
  unfold boundLinks at h
  split at h
  · next form hform =>
      obtain ⟨⟨n, c⟩, hlink, he⟩ := List.mem_map.mp h
      obtain ⟨hn, hc⟩ := Prod.mk.inj he
      exact ⟨form, n, c, hform, hlink, hn, hc⟩
  · exact absurd h List.not_mem_nil

def listSchema : Json :=
  .obj [("type", .str "object"), ("properties", .obj [("list", .obj [("type", .str "array"),
    ("items", .obj [("type", .str "string")])])])]

theorem child_below_list :
    ∃ form n c, compile {} [] (some listSchema) none none = .ok form ∧
      (n, c) ∈ Node.linksAll form.layout ∧ n.dataPointer = some "/list" ∧
      c.dataPointer = some "/list/-" ∧ ¬Strayed form n "/list" "/list/-" ∧
      Pointer.covers "/list" "/list/-" = true := by
  have hcompiled : (compile {} [] (some listSchema) none none).toOption.any (fun form =>
      form.setup.lacksReferences && (Node.linksAll form.layout).any fun link =>
        link.1.dataPointer == some "/list" && link.2.dataPointer == some "/list/-") = true := by
    decide +kernel
  obtain ⟨form, hform, hcompiled⟩ := exists_ok_of_any hcompiled
  simp only [Bool.and_eq_true, List.any_eq_true, beq_iff_eq, Prod.exists] at hcompiled
  obtain ⟨hplain, n, c, hlink, hn, hc⟩ := hcompiled
  have hstays : ¬Strayed form n "/list" "/list/-" :=
    not_strayed hform (Setup.unreferenced_of hplain)
  exact ⟨form, n, c, hform, hlink, hn, hc, hstays, child_below hform hlink hn hc hstays⟩

/-- A tree whose nodes have tags and children. -/
def treeSchema : Json :=
  .obj [("type", .str "object"), ("properties", .obj [("tree", .obj [("type", .str "object"),
    ("properties", .obj [
      ("tags", .obj [("type", .str "array"), ("items", .obj [("type", .str "string")])]),
      ("children", .obj [("type", .str "array"),
        ("items", .obj [("$ref", .str "#/properties/tree")])])])])])]

/-- The template of a tag, built for the tags of the root, is put into the template of a
tree. -/
theorem not_child_below :
    ∃ form n c, compile {} [] (some treeSchema) none none = .ok form ∧
      (n, c) ∈ Node.linksAll form.layout ∧ n.dataPointer = some "/tree/children/-/tags" ∧
      c.dataPointer = some "/tree/children/-/tree/tags/-" ∧
      Pointer.covers "/tree/children/-/tags" "/tree/children/-/tree/tags/-" = false := by
  have hmem : (some "/tree/children/-/tags", some "/tree/children/-/tree/tags/-") ∈
      boundLinks treeSchema := by
    decide +kernel
  obtain ⟨form, n, c, hform, hlink, hn, hc⟩ := mem_boundLinks hmem
  exact ⟨form, n, c, hform, hlink, hn, hc, by decide⟩

end Form

end SchemaForm
