import Fabula.Machine.Call
import Fabula.Proofs.Story.Operands

/-! How names are spelled in stories from files. Everything is looked up under its folded name. A
file gives identities, names, tags, header keys and the names in constants in that form, whatever
their spelling in it is. The names of functions, their arguments and the actions in permission tables
it gives as they are spelled, and those that are not folded are never found. -/

namespace Fabula

namespace Story

variable {s : Story} {identity : String} {e : Element}

theorem lineage_eq_cons (h : s.element? identity = some e) :
    ∃ ancestors, s.lineage identity = e :: ancestors := by
  rw [lineage, h]
  simp only
  generalize s.elements.size = generations
  cases generations with
  | zero => exact ⟨[], rfl⟩
  | succ generations =>
    unfold ancestry
    split
    · exact ⟨[], rfl⟩
    · exact ⟨_, rfl⟩

/-- A function is found under its own name if the name is folded. What is found under a name that is
not has another name, wherever it is in the lineage. -/
theorem resolveFunction?_eq_some_iff (hs : Sound { s with knownDigest := none })
    (he : s.element? identity = some e) {f : Function} (hf : f ∈ e.functions.values) :
    s.resolveFunction? identity f.name = some f ↔ Text.fold f.name = f.name := by
  have hworld : s.world.Sound := hs.world
  have hsound : ∀ a ∈ s.lineage identity, a.Sound :=
    forall_mem_lineage hworld (fun hk => hs.element hk) identity
  obtain ⟨ancestors, hl⟩ := lineage_eq_cons he
  constructor
  · intro hfound
    obtain ⟨a, ha, hg⟩ := List.exists_of_findSome?_eq_some hfound
    exact ((hsound a ha).functions hg).symm
  · intro hfold
    obtain ⟨name, hname⟩ := mem_values.mp hf
    have hown : f.name = name := (hsound e (hl ▸ List.mem_cons_self)).functions hname
    rw [resolveFunction?, hl, List.findSome?_cons, Element.function?, hfold, hown, hname]

end Story

/-- The function sees its argument: wherever it runs and whatever it is given, the operation that
pushes the variable of that name pushes the argument. -/
def Function.Sees (f : Function) (name : String) : Prop :=
  ∀ (env : Env) (m : Machine) (op : Operation) (e : ElementRef) (values : List Value)
    (frames : List Frame), values.length = f.arguments.length →
    m.frames = ⟨e, .function, Exec.bindArguments f.arguments values⟩ :: frames →
    op.first = some (.variableNamed name) →
    ∃ v message, (Exec.bindArguments f.arguments values)[name]? = some v ∧
      Exec.pushValue env op m = Exec.push v (m.traced env .value message)

namespace Exec

variable {env : Env} {m : Machine} {op : Operation} {f : Frame} {frames : List Frame}
  {name : String}

theorem exists_bindArguments {arguments : List String} {values : List Value}
    (hlength : values.length = arguments.length) (h : name ∈ arguments) :
    ∃ v, (bindArguments arguments values)[name]? = some v := by
  rcases getElem?_foldl_insert Prod.fst Prod.snd (arguments.zip values) ∅ name with
    ⟨item, -, -, hget⟩ | ⟨hno, -⟩
  · exact ⟨item.2, hget⟩
  · have hnames := List.map_fst_zip (show arguments.length ≤ values.length from hlength.ge)
    obtain ⟨item, hi, hname⟩ := List.mem_map.mp (hnames ▸ h)
    exact absurd hname (hno item hi)

theorem eq_of_bindArguments_map (g : String → Value) {arguments : List String} {v : Value}
    (h : (bindArguments arguments (arguments.map g))[name]? = some v) : v = g name := by
  have hzip : arguments.zip (arguments.map g) = arguments.map fun a => (a, g a) := by
    have hboth : (arguments.map id).zip (arguments.map g) = arguments.map fun a => (id a, g a) :=
      List.zip_map'
    rwa [List.map_id] at hboth
  rw [bindArguments, hzip] at h
  rcases getElem?_foldl_insert Prod.fst Prod.snd (arguments.map fun a => (a, g a)) ∅ name with
    ⟨item, hi, rfl, hget⟩ | ⟨-, hget⟩
  · obtain ⟨a, -, rfl⟩ := List.mem_map.mp hi
    exact Option.some.inj (h.symm.trans hget)
  · have hnone := h.symm.trans hget
    cases hnone

theorem pushValue_local {v : Value} (hop : op.first = some (.variableNamed name))
    (hm : m.frames = f :: frames) (hv : f.locals[Text.fold name]? = some v) :
    ∃ message, pushValue env op m = push v (m.traced env .value message) := by
  refine ⟨fun m => "read " ++ Text.fold name ++ " = " ++ v.text m.state.heap, ?_⟩
  simp only [pushValue, firstOperand, required, hop, Value.variableNamed, readVariable, frame,
    bind_apply, pure_apply, hm, lookUp, Text.fold_fold, hv, trace, change_apply]

/-- A variable that is not a local one is that of the element, and false if it was never set. -/
theorem pushValue_of_element {c : Context} (hop : op.first = some (.variableNamed name))
    (hm : m.frames = f :: frames) (hv : f.locals[Text.fold name]? = none)
    (hc : m.state.context env.story f.element.identity = .ok c) :
    ∃ message, pushValue env op m =
      push ((c.get? (Text.fold name)).getD (.boolean false)) (m.traced env .value message) := by
  refine ⟨fun m => "read " ++ Text.fold name ++ " = " ++
    ((c.get? (Text.fold name)).getD (.boolean false)).text m.state.heap, ?_⟩
  simp only [pushValue, firstOperand, required, hop, Value.variableNamed, readVariable, frame,
    bind_apply, pure_apply, hm, lookUp, Text.fold_fold, hv, variableOf, ask, hc, trace,
    change_apply]

theorem stack_traced (m : Machine) (env : Env) (topic : Topic) (message : Machine → String) :
    (m.traced env topic message).stack = m.stack := by
  unfold Machine.traced
  split <;> rfl

theorem eq_of_push_traced {v w : Value} {topic : Topic} {message message' : Machine → String}
    (h : push v (m.traced env topic message) = push w (m.traced env topic message')) : v = w := by
  rw [push_apply, push_apply] at h
  injection h with _ hm
  have hstack := congrArg (fun m => m.stack.values) hm
  simp only [Stack.values_push, stack_traced] at hstack
  exact (List.cons.inj hstack).1

end Exec

namespace Function

variable {f : Function} {name : String}

def onWorld (f : Function) (values : List Value) : Machine :=
  { state := {
      heap := .empty
      contexts := (∅ : Table Context).insert worldIdentity { element := .world }
      ownership := .empty
      random := .ofSeed 0 }
    frames := [⟨.world, .function, Exec.bindArguments f.arguments values⟩] }

/-- An argument is seen if its name is folded. If it is not, what is pushed in its place is another
argument or a variable of the element. -/
theorem sees_iff (h : name ∈ f.arguments) : f.Sees name ↔ Text.fold name = name := by
  constructor
  · intro hsees
    by_contra hne
    -- The argument is true here, and everything that stands under another name is false.
    let values := f.arguments.map fun a => Value.boolean (a = name)
    let env : Env := ⟨.empty, {}, .none, .none⟩
    let op : Operation := { opcode := .stack .pushValue, first := Value.variableNamed name }
    obtain ⟨v, message, hv, hpush⟩ := hsees env (f.onWorld values) op .world values []
      (List.length_map _) rfl rfl
    have htrue : v = .boolean true := by
      rw [Exec.eq_of_bindArguments_map _ hv]
      simp
    have hfalse : ∃ message, Exec.pushValue env op (f.onWorld values) =
        Exec.push (.boolean false) ((f.onWorld values).traced env .value message) := by
      cases hlocal : (Exec.bindArguments f.arguments values)[Text.fold name]? with
      | some w =>
        have hw : w = .boolean false := by
          rw [Exec.eq_of_bindArguments_map _ hlocal]
          simp [hne]
        exact hw ▸ Exec.pushValue_local rfl rfl hlocal
      | none =>
        refine Exec.pushValue_of_element (c := { element := .world }) rfl rfl hlocal ?_
        rw [State.context, ElementRef.world, fold_worldIdentity, onWorld,
          Std.ExtTreeMap.getElem?_insert_self]
        rfl
    obtain ⟨message', hpush'⟩ := hfalse
    have heq := Exec.eq_of_push_traced (hpush.symm.trans hpush')
    rw [htrue] at heq
    cases heq
  · intro hfold env m op e values frames hlength hm hop
    obtain ⟨v, hv⟩ := Exec.exists_bindArguments hlength h
    have hlocal : (Exec.bindArguments f.arguments values)[Text.fold name]? = some v := by
      rwa [hfold]
    obtain ⟨message, hpush⟩ := Exec.pushValue_local hop hm hlocal
    exact ⟨v, message, hv, hpush⟩

end Function

namespace PermissionTable

def without (t : PermissionTable) (action : String) : PermissionTable :=
  { t with actions := t.actions.erase action }

def Sees (t : PermissionTable) (action : String) : Prop :=
  t.permits (Text.fold action) ≠ (t.without action).permits (Text.fold action)

theorem sees_iff {t : PermissionTable} {action : String} (h : action ∈ t.actions) :
    t.Sees action ↔ Text.fold action = action := by
  have hcontains : t.Sees action ↔ Text.fold action ∈ t.actions ∧ action = Text.fold action := by
    unfold Sees permits without
    cases t.mode <;> simp [and_comm]
  rw [hcontains]
  constructor
  · exact fun hsees => hsees.2.symm
  · intro hfold
    rw [hfold]
    exact ⟨h, rfl⟩

end PermissionTable

namespace Story

/-- In a story from a file everything is in order, and what constants name is folded. A function is
found under its own name, an argument is seen by its function and an action by the permission table
that lists it, each of them if and only if its name is folded. -/
theorem found_iff_folded {bytes : Bytes} {s : Story} (hread : decode bytes = .ok s) :
    Sound { s with knownDigest := none } ∧ s.Constants Value.Canonical ∧
    ∀ {identity : String} {e : Element}, s.element? identity = some e →
      (∀ f ∈ e.functions.values,
        (s.resolveFunction? identity f.name = some f ↔ Text.fold f.name = f.name) ∧
        ∀ name ∈ f.arguments, f.Sees name ↔ Text.fold name = name) ∧
      ∀ t, e.permissions = some t → ∀ action ∈ t.actions,
        t.Sees action ↔ Text.fold action = action := by
  have hsound := (Made.decoded hread).sound
  refine ⟨hsound, (constants_of_decode hread).mono fun _ hv => hv.canonical, ?_⟩
  intro identity e he
  refine ⟨fun f hf => ⟨resolveFunction?_eq_some_iff hsound he hf, fun name hn => ?_⟩, ?_⟩
  · exact Function.sees_iff hn
  · exact fun t _ action ha => PermissionTable.sees_iff ha

end Story

namespace Sample

def shout : Function := ⟨"Shout", ["Word"], []⟩

def noLooking : PermissionTable := ⟨.forbid, (∅ : Words).insert "Look"⟩

def hall : Element := { kind := .room, identity := "hall", permissions := some noLooking }

/-- A function and a permission table with names that are not folded. -/
def echoStory : Story :=
  { world := { Element.world with functions := (∅ : Table Function).insert shout.name shout }
    elements := (∅ : Table Element).insert hall.identity hall }

theorem checkIdentity_hall : checkIdentity "hall" = .ok () := by decide +kernel

theorem fold_hall : Text.fold "hall" = "hall" := by decide +kernel

theorem hall_built : hall.Built := by
  have hcreate : Element.create .room "hall" = .ok { kind := .room, identity := "hall" } := by
    rw [Element.create, checkIdentity_hall, fold_hall]
    rfl
  exact .edit (.create hcreate) (.permissions noLooking) rfl

theorem echoStory_built : echoStory.Built := by
  have hadd : Story.empty.addElement hall =
      .ok { elements := (∅ : Table Element).insert hall.identity hall } := by
    simp [Story.addElement, hall, checkIdentity_hall, Story.empty]
  exact (Story.Built.empty.addElement hall_built hadd).editWorld (.function shout)

theorem decode_echoStory :
    Story.decode (Story.file echoStory.header echoStory.payload) =
      .ok { echoStory with knownDigest := some (Digest.of echoStory.payload) } := by
  have hlength : (Story.file echoStory.header echoStory.payload).length <
      0x10000000000000000 := by
    simp only [Story.file, Story.payload, List.length_append, Digest.length_of,
      Element.length_elementBody]
    decide +kernel
  rw [Story.decode_file echoStory_built.sound (by decide +kernel) (by decide +kernel) hlength,
    Story.stored_of_ordered (by decide +kernel) (by decide +kernel)]

/-- The function cannot be called under its name, its argument cannot be read, and the room does not
forbid looking. -/
theorem echoStory_unheard : ∃ s world hall,
    Story.decode (Story.file echoStory.header echoStory.payload) = .ok s ∧
    s.element? worldIdentity = some world ∧ shout ∈ world.functions.values ∧
    s.resolveFunction? worldIdentity shout.name ≠ some shout ∧
    "Word" ∈ shout.arguments ∧ ¬shout.Sees "Word" ∧
    s.element? "hall" = some hall ∧ hall.permissions = some noLooking ∧
    "Look" ∈ noLooking.actions ∧ ¬noLooking.Sees "Look" := by
  obtain ⟨-, -, hfound⟩ := Story.found_iff_folded decode_echoStory
  have hworld : Story.element? { echoStory with knownDigest := some (Digest.of echoStory.payload) }
      worldIdentity = some echoStory.world := by
    rw [Story.element?, if_pos fold_worldIdentity]
  have hhall : Story.element? { echoStory with knownDigest := some (Digest.of echoStory.payload) }
      "hall" = some hall := by
    rw [Story.element?, fold_hall, if_neg (by decide)]
    exact Std.ExtTreeMap.getElem?_insert_self
  have hshout : shout ∈ echoStory.world.functions.values :=
    mem_values.mpr ⟨_, Std.ExtTreeMap.getElem?_insert_self⟩
  have hlook : "Look" ∈ noLooking.actions := Std.ExtTreeSet.mem_insert_self
  obtain ⟨hcall, hargument⟩ := (hfound hworld).1 shout hshout
  refine ⟨_, _, _, decode_echoStory, hworld, hshout, ?_, List.mem_singleton.mpr rfl, ?_, hhall, rfl,
    hlook, ?_⟩
  · rw [Ne, hcall]
    decide +kernel
  · rw [hargument "Word" (List.mem_singleton.mpr rfl)]
    decide +kernel
  · rw [(hfound hhall).2 noLooking rfl "Look" hlook]
    decide +kernel

end Sample

end Fabula
