import MiniJava.Proofs.Json.Indentation
import MiniJava.Proofs.Tree.Nodes
import MiniJava.Proofs.Tree.Relocation
import MiniJava.Tree.Display
/-!
# Trees from their values

The JSON value of a tree tells everything about the tree but the places of its nodes.
-/

namespace MiniJava

open Json Numeric

namespace Node

/-! ## Values of slots -/

@[simp] theorem toJsonAll_eq_map (ns : List Node) : toJsonAll ns = ns.map toJson := by
  induction ns with
  | nil => rfl
  | cons n ns ih => rw [toJsonAll, ih, List.map_cons, toJson]

@[simp] theorem toJsonOption_none : toJsonOption none = .null := rfl

@[simp] theorem toJsonOption_some (n : Node) : toJsonOption (some n) = n.toJson := rfl

@[simp] theorem tagged_fields (n : Node) : tagged n (fields n) = n.toJson := rfl

theorem value_toJson (n : Node) : n.toJson.value =
    .object (("type", .string n.typeName) :: n.fields.map fun f => (f.1, f.2.value)) := by
  rw [toJson, tagged, value, valueFields_eq_map]
  rfl

theorem reals_toJson (n : Node) : n.toJson.reals = n.fields.flatMap (·.2.reals) := by
  rw [toJson, tagged, reals, realsFields_eq_flatMap]
  rfl

/-! ## Reals -/

def ownReals : Node → List Binary64
  | literal (.real x) _ => [x]
  | _ => []

def realLiterals (n : Node) : List Binary64 := n.nodes.flatMap ownReals

theorem realLiterals_eq (n : Node) :
    n.realLiterals = n.ownReals ++ n.children.flatMap realLiterals := by
  rw [realLiterals, nodes_eq, List.flatMap_cons, List.flatMap_assoc]
  rfl

def Printable (n : Node) : Prop := ∀ x ∈ n.realLiterals, x.Printable

theorem Printable.own {n : Node} (h : n.Printable) : ∀ x ∈ n.ownReals, x.Printable :=
  fun x hx => h x (by rw [realLiterals_eq]; exact List.mem_append_left _ hx)

theorem Printable.child {n c : Node} (h : n.Printable) (hc : c ∈ n.children) : c.Printable :=
  fun x hx => h x (by
    rw [realLiterals_eq]
    exact List.mem_append_right _ (List.mem_flatMap_of_mem hc hx))

theorem reals_option (found : Option Node) :
    (toJsonOption found).reals = found.toList.flatMap (·.toJson.reals) := by
  cases found <;> simp [reals]

theorem reals_children (n : Node) :
    n.toJson.reals = n.ownReals ++ n.children.flatMap (·.toJson.reals) := by
  rw [reals_toJson]
  cases n with
  | classDeclaration name base =>
      cases base <;> simp [fields, children, ownReals, reals, List.flatMap_map]
  | literal value => cases value <;> simp [fields, children, ownReals, Literal.toJson, reals]
  | _ => simp [fields, children, ownReals, reals, reals_option, List.flatMap_map]

theorem reals_eq_realLiterals (n : Node) : n.toJson.reals = n.realLiterals := by
  induction n using induction_children with
  | step n ih =>
      rw [reals_children, realLiterals_eq]
      exact congrArg _ (List.flatMap_congr ih)

/-! ## Injectivity -/

section

variable {φ : Location → Location} {a b : Node}

theorem slots_of_value (h : a.toJson.value = b.toJson.value) :
    a.typeName = b.typeName ∧
      a.fields.map (fun f => (f.1, f.2.value)) = b.fields.map fun f => (f.1, f.2.value) := by
  rw [value_toJson, value_toJson] at h
  simpa using h

/-- The values of two nodes tell them apart, unless the nodes are equal once moved. -/
def Told (φ : Location → Location) (a b : Node) : Prop :=
  a.toJson.value = b.toJson.value → a.relocate φ = b.relocate φ

theorem told_all {cs ds : List Node} (h : ∀ c ∈ cs, ∀ d ∈ ds, Told φ c d)
    (hvalues : cs.map (value ∘ toJson) = ds.map (value ∘ toJson)) :
    relocateAll φ cs = relocateAll φ ds := by
  rw [relocateAll_eq_map, relocateAll_eq_map]
  refine List.ext_getElem (by simpa using congrArg List.length hvalues) fun i hi hi' => ?_
  rw [List.length_map] at hi hi'
  have hvalue : cs[i].toJson.value = ds[i].toJson.value := by
    have hget := congrArg (·[i]?) hvalues
    simpa [hi, hi'] using hget
  rw [List.getElem_map, List.getElem_map]
  exact h _ (List.getElem_mem hi) _ (List.getElem_mem hi') hvalue

theorem told_option {found other : Option Node}
    (h : ∀ c ∈ found.toList, ∀ d ∈ other.toList, Told φ c d)
    (hvalues : (toJsonOption found).value = (toJsonOption other).value) :
    relocateOption φ found = relocateOption φ other := by
  cases found <;> cases other
  · rfl
  · simp [value_toJson, value] at hvalues
  · simp [value_toJson, value] at hvalues
  · exact congrArg some (h _ (List.mem_singleton_self _) _ (List.mem_singleton_self _) hvalues)

theorem literal_of_value {v w : Literal} (htype : v.typeName = w.typeName)
    (hreals : ∀ x y, v = .real x → w = .real y → x.text = y.text → x = y)
    (h : v.toJson.value = w.toJson.value) : v = w := by
  -- Literals of different forms differ in type.
  cases v <;> cases w <;> first | (simp [Literal.typeName] at htype; done) | skip
  case real x y => exact congrArg Literal.real (hreals x y rfl rfl (Value.number.inj h))
  case integer m n =>
    exact congrArg Literal.integer (Decimal.toList_toString_inj (Value.number.inj h))
  case char c d =>
    have hstring := congrArg String.toList (Value.string.inj h)
    simpa using hstring
  case string s t => exact congrArg Literal.string (Value.string.inj h)
  case boolean b c => exact congrArg Literal.boolean (Value.bool.inj h)

theorem strings_of_values {as bs : List String}
    (h : as.map (value ∘ string) = bs.map (value ∘ string)) : as = bs :=
  List.map_injective_iff.2 (fun _ _ hvalue => Value.string.inj hvalue) h

theorem base_of_value {base other : Option String}
    (h : ((base.map string).getD .null).value = ((other.map string).getD .null).value) :
    base = other := by
  cases base <;> cases other <;> simp_all [value]

theorem symbol_inj {o p : BinaryOperator} (h : o.symbol = p.symbol) : o = p := by
  cases o <;> cases p <;> first | rfl | exact absurd h (by decide)

/-- Nodes of one value are alike if those below them are and no two reals are written alike. -/
theorem told_of_children (hφ : ∀ l l', φ l = φ l')
    (hreals : ∀ x ∈ a.ownReals, ∀ y ∈ b.ownReals, x.text = y.text → x = y)
    (hchildren : ∀ c ∈ a.children, ∀ d ∈ b.children, Told φ c d) : Told φ a b := by
  intro h
  have hslots := slots_of_value h
  -- Nodes of different forms differ in type or in the names of their slots.
  cases a <;> cases b <;> first | (simp [fields, typeName] at hslots; done) | skip
  case mainClass name method l name' method' l' =>
    obtain ⟨-, rfl, hmethod⟩ : _ ∧ name = name' ∧ method.toJson.value = method'.toJson.value := by
      simpa [fields, value] using hslots
    rw [relocate, relocate, hφ l l', hchildren method (.head _) method' (.head _) hmethod]
  case classDeclaration name base vs ms l name' base' vs' ms' l' =>
    obtain ⟨-, rfl, hbase, hvs, hms⟩ : _ ∧ name = name' ∧
        ((base.map string).getD .null).value = ((base'.map string).getD .null).value ∧
        vs.map (value ∘ toJson) = vs'.map (value ∘ toJson) ∧
        ms.map (value ∘ toJson) = ms'.map (value ∘ toJson) := by
      simpa [fields, value] using hslots
    simp only [children, List.forall_mem_append] at hchildren
    rw [relocate, relocate, hφ l l', base_of_value hbase,
      told_all (fun c hc d hd => (hchildren.1 c hc).1 d hd) hvs,
      told_all (fun c hc d hd => (hchildren.2 c hc).2 d hd) hms]
  case methodDeclaration as r name ps n l as' r' name' ps' n' l' =>
    obtain ⟨-, has, rfl, rfl, hps, hbody⟩ : _ ∧
        as.map (value ∘ string) = as'.map (value ∘ string) ∧ r = r' ∧ name = name' ∧
        ps.map (value ∘ toJson) = ps'.map (value ∘ toJson) ∧
        n.toJson.value = n'.toJson.value := by
      simpa [fields, value] using hslots
    simp only [children, List.forall_mem_append, List.forall_mem_singleton] at hchildren
    rw [relocate, relocate, hφ l l', strings_of_values has,
      told_all (fun c hc d hd => (hchildren.1 c hc).1 d hd) hps, hchildren.2.2 hbody]
  case methodBody vs ss r l vs' ss' r' l' =>
    obtain ⟨-, hvs, hss, hr⟩ : _ ∧ vs.map (value ∘ toJson) = vs'.map (value ∘ toJson) ∧
        ss.map (value ∘ toJson) = ss'.map (value ∘ toJson) ∧
        (toJsonOption r).value = (toJsonOption r').value := by
      simpa [fields, value] using hslots
    simp only [children, List.forall_mem_append] at hchildren
    rw [relocate, relocate, hφ l l',
      told_all (fun c hc d hd => (hchildren.1.1 c hc).1.1 d hd) hvs,
      told_all (fun c hc d hd => (hchildren.1.2 c hc).1.2 d hd) hss,
      told_option (fun c hc d hd => (hchildren.2 c hc).2 d hd) hr]
  case variableDeclaration type name l type' name' l' =>
    obtain ⟨-, rfl, rfl⟩ : _ ∧ type = type' ∧ name = name' := by
      simpa [fields, value] using hslots
    rw [relocate, relocate, hφ l l']
  case block ss l ss' l' =>
    obtain ⟨-, hss⟩ : _ ∧ ss.map (value ∘ toJson) = ss'.map (value ∘ toJson) := by
      simpa [fields, value] using hslots
    simp only [children] at hchildren
    rw [relocate, relocate, hφ l l', told_all hchildren hss]
  case ifStatement c t e l c' t' e' l' =>
    obtain ⟨-, hc, ht, he⟩ : _ ∧ c.toJson.value = c'.toJson.value ∧
        t.toJson.value = t'.toJson.value ∧ (toJsonOption e).value = (toJsonOption e').value := by
      simpa [fields, value] using hslots
    simp only [children, List.forall_mem_cons] at hchildren
    rw [relocate, relocate, hφ l l', hchildren.1.1 hc, hchildren.2.1.2.1 ht,
      told_option (fun c hc d hd => (hchildren.2.2 c hc).2.2 d hd) he]
  case whileStatement c n l c' n' l' =>
    obtain ⟨-, hc, hbody⟩ : _ ∧ c.toJson.value = c'.toJson.value ∧
        n.toJson.value = n'.toJson.value := by
      simpa [fields, value] using hslots
    simp only [children, List.forall_mem_cons] at hchildren
    rw [relocate, relocate, hφ l l', hchildren.1.1 hc, hchildren.2.1.2.1 hbody]
  case forStatement f c u n l f' c' u' n' l' =>
    obtain ⟨-, hf, hc, hu, hbody⟩ : _ ∧ (toJsonOption f).value = (toJsonOption f').value ∧
        (toJsonOption c).value = (toJsonOption c').value ∧
        (toJsonOption u).value = (toJsonOption u').value ∧
        n.toJson.value = n'.toJson.value := by
      simpa [fields, value] using hslots
    simp only [children, List.forall_mem_append, List.forall_mem_singleton] at hchildren
    rw [relocate, relocate, hφ l l',
      told_option (fun c hc d hd => (hchildren.1.1.1 c hc).1.1.1 d hd) hf,
      told_option (fun c hc d hd => (hchildren.1.1.2 c hc).1.1.2 d hd) hc,
      told_option (fun c hc d hd => (hchildren.1.2 c hc).1.2 d hd) hu, hchildren.2.2 hbody]
  case returnStatement v l v' l' =>
    obtain ⟨-, hv⟩ : _ ∧ v.toJson.value = v'.toJson.value := by
      simpa [fields, value] using hslots
    rw [relocate, relocate, hφ l l', hchildren v (.head _) v' (.head _) hv]
  case printStatement v l v' l' =>
    obtain ⟨-, hv⟩ : _ ∧ v.toJson.value = v'.toJson.value := by
      simpa [fields, value] using hslots
    rw [relocate, relocate, hφ l l', hchildren v (.head _) v' (.head _) hv]
  case newObject type v l type' v' l' =>
    obtain ⟨-, rfl, hv⟩ : _ ∧ type = type' ∧ v.toJson.value = v'.toJson.value := by
      simpa [fields, value] using hslots
    rw [relocate, relocate, hφ l l', hchildren v (.head _) v' (.head _) hv]
  case newArray type v l type' v' l' =>
    obtain ⟨-, rfl, hv⟩ : _ ∧ type = type' ∧ v.toJson.value = v'.toJson.value := by
      simpa [fields, value] using hslots
    rw [relocate, relocate, hφ l l', hchildren v (.head _) v' (.head _) hv]
  case methodCall name as l name' as' l' =>
    obtain ⟨-, rfl, has⟩ : _ ∧ name = name' ∧
        as.map (value ∘ toJson) = as'.map (value ∘ toJson) := by
      simpa [fields, value] using hslots
    simp only [children] at hchildren
    rw [relocate, relocate, hφ l l', told_all hchildren has]
  case reference name i l name' i' l' =>
    obtain ⟨-, rfl, hi⟩ : _ ∧ name = name' ∧
        (toJsonOption i).value = (toJsonOption i').value := by
      simpa [fields, value] using hslots
    rw [relocate, relocate, hφ l l', told_option hchildren hi]
  case binary o v w l o' v' w' l' =>
    obtain ⟨-, ho, hv, hw⟩ : _ ∧ o.symbol = o'.symbol ∧ v.toJson.value = v'.toJson.value ∧
        w.toJson.value = w'.toJson.value := by
      simpa [fields, value] using hslots
    simp only [children, List.forall_mem_cons] at hchildren
    rw [relocate, relocate, hφ l l', symbol_inj ho, hchildren.1.1 hv,
      hchildren.2.1.2.1 hw]
  case unary o v l o' v' l' =>
    obtain ⟨-, -, hv⟩ : _ ∧ o.symbol = o'.symbol ∧ v.toJson.value = v'.toJson.value := by
      simpa [fields, value] using hslots
    cases o
    cases o'
    rw [relocate, relocate, hφ l l', hchildren v (.head _) v' (.head _) hv]
  case literal v l v' l' =>
    have hvalue : v.toJson.value = v'.toJson.value := by
      simpa [fields] using hslots.2
    have hv : v = v' := by
      refine literal_of_value hslots.1 ?_ hvalue
      rintro x y rfl rfl
      exact hreals x (.head _) y (.head _)
    rw [relocate, relocate, hφ l l', hv]

/-- Trees of one value are alike, if their reals can be printed. -/
theorem told_of_printable (hφ : ∀ l l', φ l = φ l') (ha : a.Printable) (hb : b.Printable) :
    Told φ a b := by
  induction a using induction_children generalizing b with
  | step a ih =>
      refine told_of_children hφ ?_ fun c hc d hd => ih c hc (ha.child hc) (hb.child hd)
      exact fun x hx y hy htext => (ha.own x hx).text_inj (hb.own y hy) htext

end

/-! ## Places -/

section

variable (φ : Location → Location)

@[simp] theorem typeName_relocate (n : Node) : (n.relocate φ).typeName = n.typeName := by
  cases n <;> rfl

mutual

theorem fields_relocate : ∀ n : Node, (n.relocate φ).fields = n.fields
  | mainClass _ m _ => by simp only [relocate, fields, tagged, typeName_relocate, fields_relocate m]
  | classDeclaration _ _ vs ms _ => by
    simp only [relocate, fields, toJsonAll_relocateAll vs, toJsonAll_relocateAll ms]
  | methodDeclaration _ _ _ ps b _ => by
    simp only [relocate, fields, tagged, typeName_relocate, toJsonAll_relocateAll ps,
      fields_relocate b]
  | methodBody vs ss r _ => by
    simp only [relocate, fields, toJsonAll_relocateAll vs, toJsonAll_relocateAll ss,
      toJsonOption_relocateOption r]
  | variableDeclaration .. => rfl
  | block ss _ => by simp only [relocate, fields, toJsonAll_relocateAll ss]
  | ifStatement c t e _ => by
    simp only [relocate, fields, tagged, typeName_relocate, fields_relocate c, fields_relocate t,
      toJsonOption_relocateOption e]
  | whileStatement c b _ => by
    simp only [relocate, fields, tagged, typeName_relocate, fields_relocate c, fields_relocate b]
  | forStatement f c u b _ => by
    simp only [relocate, fields, tagged, typeName_relocate, toJsonOption_relocateOption f,
      toJsonOption_relocateOption c, toJsonOption_relocateOption u, fields_relocate b]
  | returnStatement v _ => by
    simp only [relocate, fields, tagged, typeName_relocate, fields_relocate v]
  | printStatement v _ => by
    simp only [relocate, fields, tagged, typeName_relocate, fields_relocate v]
  | newObject _ c _ => by
    simp only [relocate, fields, tagged, typeName_relocate, fields_relocate c]
  | newArray _ n _ => by
    simp only [relocate, fields, tagged, typeName_relocate, fields_relocate n]
  | methodCall _ as _ => by simp only [relocate, fields, toJsonAll_relocateAll as]
  | reference _ i _ => by simp only [relocate, fields, toJsonOption_relocateOption i]
  | binary _ v w _ => by
    simp only [relocate, fields, tagged, typeName_relocate, fields_relocate v, fields_relocate w]
  | unary _ v _ => by
    simp only [relocate, fields, tagged, typeName_relocate, fields_relocate v]
  | literal .. => rfl

private theorem toJsonAll_relocateAll : ∀ ns : List Node,
    toJsonAll (relocateAll φ ns) = toJsonAll ns
  | [] => rfl
  | n :: ns => by
    simp only [relocateAll, toJsonAll, tagged, typeName_relocate, fields_relocate n,
      toJsonAll_relocateAll ns]

private theorem toJsonOption_relocateOption : ∀ found : Option Node,
    toJsonOption (relocateOption φ found) = toJsonOption found
  | none => rfl
  | some n => by
    simp only [relocateOption, toJsonOption, tagged, typeName_relocate, fields_relocate n]

end

theorem toJson_relocate (n : Node) : (n.relocate φ).toJson = n.toJson := by
  rw [toJson, toJson, tagged, tagged, typeName_relocate, fields_relocate]

end

theorem Printable.numerals {n : Node} (h : n.Printable) :
    ∀ x ∈ n.toJson.reals, Json.Numeral x.text := by
  rw [reals_eq_realLiterals]
  exact fun x hx => (h x hx).numeral_text

end Node

namespace Program

def Printable (p : Program) : Prop := ∀ n ∈ p.classes, n.Printable

theorem reals_toJson (p : Program) : p.toJson.reals = p.classes.flatMap (·.toJson.reals) := by
  simp [toJson, reals, List.flatMap_map]

theorem Printable.numerals {p : Program} (h : p.Printable) :
    ∀ x ∈ p.toJson.reals, Json.Numeral x.text := by
  rw [reals_toJson, List.forall_mem_flatMap]
  exact fun n hn => (h n hn).numerals

theorem value_toJson (p : Program) : p.toJson.value =
    .object [("type", .string "Program"),
      ("classes", .array (p.classes.map (value ∘ Node.toJson)))] := by
  simp [toJson, value]

end Program

/-! ## Trees of one text -/

section

variable {φ : Location → Location}

theorem Node.shown_display {n : Node} (h : n.Printable) : n.toJson.Shown n.display :=
  shown_compact h.numerals

theorem Program.shown_display {p : Program} (h : p.Printable) : p.toJson.Shown p.display :=
  shown_compact h.numerals

theorem Node.display_eq_of_alike {a b : Node} (h : Alike φ a b) : a.display = b.display := by
  have hjson : (a.relocate φ).toJson = (b.relocate φ).toJson := congrArg toJson h
  rw [toJson_relocate, toJson_relocate] at hjson
  rw [display, display, hjson]

theorem Program.display_eq_of_alike {p q : Program} (h : Alike φ p q) :
    p.display = q.display := by
  have hclasses : p.classes.map (Node.relocate φ) = q.classes.map (Node.relocate φ) :=
    congrArg Program.classes h
  have hplaced : ∀ ns : List Node,
      (ns.map (Node.relocate φ)).map Node.toJson = ns.map Node.toJson := by
    intro ns
    rw [List.map_map]
    exact List.map_congr_left fun n _ => n.toJson_relocate φ
  have hjson := congrArg (List.map Node.toJson) hclasses
  rw [hplaced, hplaced] at hjson
  rw [display, display, toJson, toJson, Node.toJsonAll_eq_map, Node.toJsonAll_eq_map, hjson]

/-- The text of a node tells it apart from all that are not alike. -/
theorem Node.display_eq_iff {a b : Node} (hφ : ∀ l l', φ l = φ l') (ha : a.Printable)
    (hb : b.Printable) : a.display = b.display ↔ Alike φ a b := by
  constructor
  · intro h
    exact told_of_printable hφ ha hb ((shown_display ha).value_eq (h ▸ shown_display hb))
  · exact display_eq_of_alike

theorem Program.display_eq_iff {p q : Program} (hφ : ∀ l l', φ l = φ l') (hp : p.Printable)
    (hq : q.Printable) : p.display = q.display ↔ Alike φ p q := by
  constructor
  · intro h
    have hvalue := (shown_display hp).value_eq (h ▸ shown_display hq)
    have hclasses : p.classes.map (value ∘ Node.toJson) = q.classes.map (value ∘ Node.toJson) := by
      simpa [value_toJson] using hvalue
    have htold := Node.told_all (φ := φ)
      (fun c hc d hd => Node.told_of_printable hφ (hp c hc) (hq d hd)) hclasses
    rw [Node.relocateAll_eq_map, Node.relocateAll_eq_map] at htold
    show Program.mk _ _ = Program.mk _ _
    rw [hφ p.location q.location]
    exact congrArg (Program.mk _) htold
  · exact display_eq_of_alike

theorem Program.display_ne {p : Program} {n : Node} (hp : p.Printable) (hn : n.Printable) :
    p.display ≠ n.display := by
  intro h
  have hvalue := (shown_display hp).value_eq (h ▸ n.shown_display hn)
  rw [value_toJson, Node.value_toJson] at hvalue
  have htype : "Program" = n.typeName := by
    simp only [Value.object.injEq, List.cons.injEq, Prod.mk.injEq, Value.string.injEq] at hvalue
    exact hvalue.1.2
  cases n with
  | literal v => cases v <;> simp [Node.typeName, Literal.typeName] at htype
  | _ => simp [Node.typeName] at htype

end

end MiniJava
