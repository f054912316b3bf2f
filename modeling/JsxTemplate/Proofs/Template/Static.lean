import JsxTemplate.Proofs.Lowering.Properties

/-!
# Static nodes

A node is static if it is a text, or an element of the document without directives whose properties can
all be written into its markup and whose children are static. The markup of such a node depends on the
node alone (`Node.markup`), and not on where it stands in the source (`Node.markup_unlocated`).
-/

namespace JsxTemplate

variable {item : TagItem} {tag : Tag}

/-! ## Nodes without their places -/

def Expression.unlocated (e : Expression) : Expression := { e with loc := .stub }

def Attribute.unlocated (a : Attribute) : Attribute :=
  { a with nameLoc := .stub, value := a.value.map Expression.unlocated, loc := .stub }

def TagItem.unlocated : TagItem → TagItem
  | .attribute a => .attribute a.unlocated
  | .spread e _ => .spread e.unlocated .stub

def Tag.unlocated (tag : Tag) : Tag :=
  { tag with items := tag.items.map TagItem.unlocated, loc := .stub }

mutual

/-- A node without the places of its parts in the source. -/
def Node.unlocated : Node → Node
  | .element tag children => .element tag.unlocated (unlocatedAll children)
  | .fragment children _ => .fragment (unlocatedAll children) .stub
  | .text content _ => .text content .stub
  | .expression e roots _ => .expression e.unlocated (unlocatedAll roots) .stub

def Node.unlocatedAll : List Node → List Node
  | [] => []
  | n :: ns => n.unlocated :: unlocatedAll ns

end

/-! ## Static nodes -/

/-- Whether an item of a tag is an attribute that is neither a directive nor a listener. -/
def TagItem.isPlain : TagItem → Bool
  | .attribute a => (Tag.directiveBody? a).isNone && !isEventName a.name
  | .spread _ _ => false

namespace Tag

/-- Whether the element is stored in a reference. -/
def isStored (tag : Tag) : Bool :=
  (((tag.find? "ref").bind Attribute.value).filter fun e => e.isStatic || !e.isEmpty).isSome

/-- Whether all properties can be written into the markup. -/
def isFolded (tag : Tag) : Bool :=
  match tag.properties with
  | .fixed ps => (Property.unfolded [] ps).isEmpty
  | .grouped _ _ => false

/-- Whether the tag is that of an element of the document of which nothing is done at run time. -/
def isStatic (tag : Tag) : Bool :=
  tag.type == .element && tag.items.all TagItem.isPlain && !tag.isStored && tag.isFolded

/-- The attributes in the markup of such an element. -/
def attributeMarkup (tag : Tag) : String :=
  match tag.properties with
  | .fixed ps => String.join (ps.map Property.markup)
  | .grouped _ _ => ""

end Tag

namespace Node

mutual

def isStatic : Node → Bool
  | .element tag children => tag.isStatic && isStaticAll children
  | .text _ _ => true
  | .fragment _ _ | .expression _ _ _ => false

def isStaticAll : List Node → Bool
  | [] => true
  | n :: ns => n.isStatic && isStaticAll ns

end

/-- Whether the parser of a browser would move a node out of an element. -/
def isMisplacedIn (parent : Tag) : Node → Bool
  | .element tag _ => !Html.isValidNesting parent.name tag.name
  | _ => false

/-- The marks of a static node inside an element: it is inserted if it is misplaced. -/
def marksIn (parent : Tag) (n : Node) : NodePlan :=
  { NodePlan.empty with nonTemplate := n.isMisplacedIn parent, insert := n.isMisplacedIn parent }

end Node

/-- The markup of children, with a placeholder for each run that is inserted between others. -/
def fillPlaces (runs : List (List Nat × RunPlace)) (templates : List String) : List String :=
  runs.foldl (fun templates r => if r.2 = .middle then templates.set (r.1.headD 0) "<!>" else templates)
    templates

namespace Node

mutual

/-- The markup of a static node. -/
def markup : Node → String
  | .element tag children =>
    Lower.elementMarkup tag tag.attributeMarkup (String.join
      (fillPlaces (insertionRuns 0 [] false (children.map (marksIn tag))) (markupsIn tag children)))
  | .text content _ => Html.escapeText content
  | .fragment _ _ | .expression _ _ _ => ""

def markupsIn (parent : Tag) : List Node → List String
  | [] => []
  | n :: ns => (if n.isMisplacedIn parent then "" else n.markup) :: markupsIn parent ns

end

end Node

/-! ## Properties of plain items -/

theorem TagItem.ofAttribute_of_isPlain {a : Attribute} (h : (TagItem.attribute a).isPlain = true) :
    Directive.ofAttribute a false =
      { name := "bind"
        rawName := a.rawName
        arg := some ⟨(Directive.splitBindKey a.rawName).1, true, a.nameLoc⟩
        exp := a.value.filter fun value => value.isStatic || !value.isEmpty
        modifiers := (Directive.splitBindKey a.rawName).2
        loc := a.loc } := by
  simp only [isPlain, Bool.and_eq_true, Bool.not_eq_true', Option.isNone_iff_eq_none] at h
  obtain ⟨hbody, hevent⟩ := h
  unfold Tag.directiveBody? at hbody
  unfold Directive.ofAttribute
  generalize a.name.toList = cs at hbody
  split at hbody
  · cases hbody
  · simp [hevent]

theorem TagItem.gather_of_isPlain (tag : Tag) (h : item.isPlain = true) (draft : PropertyDraft) :
    gather tag draft item = (property? tag item).elim draft (draft.add false) := by
  rcases item with a | ⟨e, loc⟩
  · simp only [gather, property?, ofAttribute_of_isPlain h]
    simp only [bne_self_eq_false, Bool.false_eq_true, if_false, Option.isNone_some, Bool.or_false,
      Bool.false_or]
    split <;> rfl
  · simp [isPlain] at h

theorem Directive.isStatic_key_of_boundProperty? {d : Directive} {key : Expression}
    (harg : d.arg = some key) (hkey : key.isStatic = true) {p : Property}
    (hp : d.boundProperty? tag = some p) : p.key.isStatic = true := by
  simp only [boundProperty?, harg, Option.bind_some] at hp
  split at hp
  · cases hp
  · obtain rfl := Option.some.inj hp
    simp only [Property.plain]
    split <;> exact hkey

theorem TagItem.isStatic_key_of_isPlain (h : item.isPlain = true) {p : Property}
    (hp : property? tag item = some p) : p.key.isStatic = true := by
  rcases item with a | ⟨e, loc⟩
  · simp only [property?, ofAttribute_of_isPlain h] at hp
    split at hp
    · cases hp
    · exact Directive.isStatic_key_of_boundProperty? rfl rfl hp
  · simp [isPlain] at h

theorem Tag.properties_of_plain (h : tag.items.all TagItem.isPlain = true) :
    tag.properties = .fixed (Property.unique (tag.items.filterMap (TagItem.property? tag))) := by
  have hgather : ∀ (items : List TagItem) (draft : PropertyDraft), items.all TagItem.isPlain = true →
      draft.groups = [] → (items.foldl (TagItem.gather tag) draft).groups = [] ∧
        (items.foldl (TagItem.gather tag) draft).last =
          draft.last ++ items.filterMap (TagItem.property? tag) := by
    intro items
    induction items with
    | nil => exact fun draft _ hgroups => ⟨hgroups, by simp⟩
    | cons item items ih =>
      intro draft hplain hgroups
      simp only [List.all_cons, Bool.and_eq_true] at hplain
      rw [List.foldl_cons, TagItem.gather_of_isPlain tag hplain.1]
      cases hp : TagItem.property? tag item with
      | none => simpa [hp] using ih draft hplain.2 hgroups
      | some p =>
        have hadd := ih (draft.add false p) hplain.2 (by simpa [PropertyDraft.add] using hgroups)
        simpa [hp, PropertyDraft.add] using hadd
  obtain ⟨hgroups, hlast⟩ := hgather tag.items ⟨[], [], []⟩ h rfl
  have hkeys : (tag.items.filterMap (TagItem.property? tag)).any (fun p => !p.key.isStatic) = false := by
    rw [List.any_eq_false]
    intro p hp
    obtain ⟨item, hitem, hp⟩ := List.mem_filterMap.mp hp
    simp [TagItem.isStatic_key_of_isPlain (List.all_eq_true.mp h item hitem) hp]
  rw [List.nil_append] at hlast
  rw [Tag.properties, PropertyDraft.finish, hgroups, hlast, hkeys]
  rfl

/-! ## Where a node stands -/

def Property.unlocated (p : Property) : Property :=
  { p with key := p.key.unlocated, values := p.values.map Expression.unlocated }

theorem Property.markup_unlocated (p : Property) : p.unlocated.markup = p.markup := by
  have hvalues : (p.values.map Expression.unlocated).map Expression.content =
      p.values.map Expression.content := by
    rw [List.map_map]
    rfl
  simp only [markup, unlocated, hvalues]
  rfl

theorem Property.addUnique_unlocated (p : Property) (ps : List Property) :
    addUnique p.unlocated (ps.map unlocated) = (addUnique p ps).map unlocated := by
  induction ps with
  | nil => rfl
  | cons known ps ih =>
    have hsame : sameKey known.unlocated p.unlocated = sameKey known p := rfl
    have hmerged : p.unlocated.isMerged = p.isMerged := rfl
    rw [List.map_cons, addUnique, addUnique, hsame, hmerged]
    split
    · split
      · simp [unlocated]
      · rfl
    · rw [ih, List.map_cons]

theorem Property.unique_unlocated (ps : List Property) :
    unique (ps.map unlocated) = (unique ps).map unlocated := by
  have hgen : ∀ known : List Property,
      (ps.map unlocated).foldl (fun known p => addUnique p known) (known.map unlocated) =
        (ps.foldl (fun known p => addUnique p known) known).map unlocated := by
    induction ps with
    | nil => exact fun _ => rfl
    | cons p ps ih =>
      intro known
      rw [List.map_cons, List.foldl_cons, List.foldl_cons, addUnique_unlocated, ih]
  exact hgen []

theorem TagItem.isPlain_unlocated (item : TagItem) : item.unlocated.isPlain = item.isPlain := by
  cases item <;> rfl

theorem Directive.boundValue_unlocated {d d' : Directive} (tag : Tag)
    (hexp : d'.exp = d.exp.map Expression.unlocated) (hloc : d'.loc = .stub) :
    d'.boundValue tag.unlocated = (d.boundValue tag).unlocated := by
  unfold boundValue
  rw [hexp, hloc]
  cases d.exp with
  | none =>
    have hcomponent : tag.unlocated.isComponent = tag.isComponent := rfl
    simp only [Option.map_none, hcomponent]
    split <;> rfl
  | some e =>
    have hstatic : e.unlocated.isStatic = e.isStatic := rfl
    have hliteral : e.unlocated.literal? = e.literal? := rfl
    simp only [Option.map_some, hstatic, hliteral]
    split
    · rfl
    · cases e.literal? <;> rfl

theorem Directive.boundProperty?_unlocated {d d' : Directive} (tag : Tag) {key : Expression}
    (harg : d.arg = some key) (harg' : d'.arg = some key.unlocated)
    (hexp : d'.exp = d.exp.map Expression.unlocated) (hmodifiers : d'.modifiers = d.modifiers)
    (hloc : d'.loc = .stub) :
    d'.boundProperty? tag.unlocated = (d.boundProperty? tag).map Property.unlocated := by
  have hstatic : key.unlocated.isStatic = key.isStatic := rfl
  have hcontent : key.unlocated.content = key.content := rfl
  have hhas : ∀ modifier, d'.hasModifier modifier = d.hasModifier modifier := by
    simp [hasModifier, hmodifiers]
  unfold boundProperty?
  rw [harg, harg', Option.bind_some, Option.bind_some]
  simp only [propertyModifier?, hhas, hstatic, hcontent, boundValue_unlocated tag hexp hloc]
  split
  · rfl
  · rw [Option.map_some]
    congr 1
    simp only [Property.plain, Property.unlocated, List.map_cons, List.map_nil]
    congr 1
    by_cases hcamel : (d.hasModifier "camel" && key.isStatic) = true
    · rw [if_pos hcamel, if_pos hcamel]
      rfl
    · rw [if_neg hcamel, if_neg hcamel]

theorem TagItem.property?_unlocated (tag : Tag) (h : item.isPlain = true) :
    property? tag.unlocated item.unlocated = (property? tag item).map Property.unlocated := by
  rcases item with a | ⟨e, loc⟩
  · have h' : (TagItem.attribute a.unlocated).isPlain = true := h
    have hexp : (a.unlocated.value.filter fun value => value.isStatic || !value.isEmpty) =
        (a.value.filter fun value => value.isStatic || !value.isEmpty).map Expression.unlocated := by
      cases hvalue : a.value with
      | none => simp [Attribute.unlocated, hvalue]
      | some e =>
        have hkeeps : (e.unlocated.isStatic || !e.unlocated.isEmpty) = (e.isStatic || !e.isEmpty) := rfl
        simp only [Attribute.unlocated, hvalue, Option.map_some, Option.filter_some, hkeeps]
        split <;> rfl
    have hproperty : (Directive.ofAttribute a.unlocated false).boundProperty? tag.unlocated =
        ((Directive.ofAttribute a false).boundProperty? tag).map Property.unlocated := by
      rw [ofAttribute_of_isPlain h, ofAttribute_of_isPlain h']
      exact Directive.boundProperty?_unlocated tag rfl rfl hexp rfl rfl
    have hstays : ∀ d : Directive, d = Directive.ofAttribute a false ∨
        d = Directive.ofAttribute a.unlocated false →
        (d.name != "bind" || d.arg.isNone || (tag.name == "component" && d.staticArg? == some "is")) =
          (tag.name == "component" && (Directive.splitBindKey a.rawName).1 == "is") := by
      rintro d (rfl | rfl)
      · simp [ofAttribute_of_isPlain h, Directive.staticArg?]
      · have hraw : a.unlocated.rawName = a.rawName := rfl
        simp [ofAttribute_of_isPlain h', Directive.staticArg?, hraw]
    have hname : tag.unlocated.name = tag.name := rfl
    simp only [unlocated, property?, hproperty, hname, hstays _ (Or.inl rfl), hstays _ (Or.inr rfl)]
    split <;> rfl
  · simp [isPlain] at h

theorem Tag.attributeMarkup_unlocated (h : tag.items.all TagItem.isPlain = true) :
    tag.unlocated.attributeMarkup = tag.attributeMarkup := by
  have h' : tag.unlocated.items.all TagItem.isPlain = true := by
    simpa [unlocated, TagItem.isPlain_unlocated, Function.comp_def] using h
  have hproperties : tag.unlocated.items.filterMap (TagItem.property? tag.unlocated) =
      (tag.items.filterMap (TagItem.property? tag)).map Property.unlocated := by
    have hitems : tag.unlocated.items = tag.items.map TagItem.unlocated := rfl
    rw [hitems, List.filterMap_map, List.map_filterMap]
    refine List.filterMap_congr fun item hitem => ?_
    exact TagItem.property?_unlocated tag (List.all_eq_true.mp h item hitem)
  rw [attributeMarkup, attributeMarkup, properties_of_plain h, properties_of_plain h', hproperties,
    Property.unique_unlocated]
  simp only [List.map_map]
  congr 1
  exact List.map_congr_left fun p _ => p.markup_unlocated

namespace Node

theorem isMisplacedIn_unlocated (parent : Tag) (n : Node) :
    n.unlocated.isMisplacedIn parent.unlocated = n.isMisplacedIn parent := by
  cases n <;> simp [unlocated, isMisplacedIn, Tag.unlocated]

theorem marksIn_unlocated (parent : Tag) (ns : List Node) :
    (unlocatedAll ns).map (marksIn parent.unlocated) = ns.map (marksIn parent) := by
  induction ns with
  | nil => rfl
  | cons n ns ih =>
    rw [unlocatedAll, List.map_cons, List.map_cons, ih, marksIn, marksIn, isMisplacedIn_unlocated]

mutual

theorem markup_unlocated : ∀ {n : Node}, n.isStatic = true → n.unlocated.markup = n.markup
  | .element tag children, h => by
    simp only [isStatic, Tag.isStatic, Bool.and_eq_true] at h
    rw [unlocated, markup, markup, Tag.attributeMarkup_unlocated h.1.1.1.2, marksIn_unlocated,
      markupsIn_unlocated tag h.2]
    rfl
  | .text _ _, _ => by rw [unlocated, markup, markup]
  | .fragment _ _, h | .expression _ _ _, h => by simp [isStatic] at h

theorem markupsIn_unlocated (parent : Tag) : ∀ {ns : List Node}, isStaticAll ns = true →
    markupsIn parent.unlocated (unlocatedAll ns) = markupsIn parent ns
  | [], _ => by rw [unlocatedAll, markupsIn, markupsIn]
  | n :: ns, h => by
    simp only [isStaticAll, Bool.and_eq_true] at h
    rw [unlocatedAll, markupsIn, markupsIn, isMisplacedIn_unlocated, markup_unlocated h.1,
      markupsIn_unlocated parent h.2]

end

theorem markup_eq_of_unlocated {n m : Node} (hn : n.isStatic = true) (hm : m.isStatic = true)
    (h : n.unlocated = m.unlocated) : n.markup = m.markup := by
  rw [← markup_unlocated hn, h, markup_unlocated hm]

end Node

end JsxTemplate
