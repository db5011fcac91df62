/-
Settings from a document, whatever its layout. Each section and the document itself may be an object or
an array, with its keys in any order and unknown keys among them. What is left out has its default, and
the defaults of a section are those of its fields; so what is read depends on the values that are given
alone, and settings are read back from every layout. A document that starts like one but gives a key
twice, or a number that its field cannot hold, is refused there, whatever follows.
-/
import Multicycle.Proofs.Json.Forms
import Multicycle.Settings.Document

namespace Multicycle.Settings

open Json

/-! ## Fields of numbers and of records -/

section
variable {σ τ κ : Type} (key : String)

/-- The decimal of a number in range is taken for this number. -/
theorem numberField_takes {bound n : Nat} (set : σ → Nat → σ) (hn : n < bound)
    (hbound : bound ≤ UInt64.size) :
    Reader.Takes (numberField key bound set).read (Nat.toDigits 10 n) (fun s => set s n) where
  opens := by
    obtain ⟨d, ds, hds, hd⟩ := (Numeric.decimal n).head_chars
    rw [Numeric.chars_decimal] at hds
    exact ⟨d, ds, hds, isBlank_of_startsNumber hd, ne_of_startsNumber hd _ (by decide)⟩
  read_eq gap s rest hrest := by
    show natural bound (gap.chars ++ (Nat.toDigits 10 n ++ rest)) >>= _ = _
    rw [natural_decimal gap hn hbound hrest]
    rfl

theorem numberField_refuses {bound : Nat} (set : σ → Nat → σ) {w : Numeric} (hw : w.Misfits bound)
    {rest : List Char} (hrest : Ends rest) :
    (numberField key bound set).read.Refuses (w.chars ++ rest) := by
  intro gap s
  show natural bound (gap.chars ++ (w.chars ++ rest)) >>= _ = _
  rw [natural_misfit hw gap hrest]
  rfl

variable (S : Schema τ κ) (unset : τ) (set : σ → τ → σ)

/-- A record that is there is taken for what it gives, over what it holds when it gives nothing. -/
theorem recordField_takes {text : κ → List Char} {update : κ → τ → τ}
    (htakes : ∀ k ∈ S.names, (S.entry k).read.Takes (text k) (update k)) {form : Form κ}
    (hfits : form.Fits S) :
    Reader.Takes (recordField key S.fields unset set).read (form.chars text)
      (fun s => set s (updates update form.given unset)) where
  opens := (Form.takes S htakes hfits).opens
  read_eq gap s rest hrest := by
    show record S.fields unset (gap.chars ++ (form.chars text ++ rest)) >>= _ = _
    rw [(Form.takes S htakes hfits).read_eq gap unset hrest]
    rfl

theorem recordField_refuses {cs : List Char} (h : Reader.Refuses (record S.fields) cs) :
    (recordField key S.fields unset set).read.Refuses cs := by
  intro gap s
  show record S.fields unset (gap.chars ++ cs) >>= _ = _
  rw [h gap unset]
  rfl

end

/-! ## Sections -/

inductive Section where
  | general
  | system
  | memory
  deriving DecidableEq

namespace Section

/-- What a section holds. -/
abbrev Record : Section → Type
  | general => General
  | system => System
  | memory => Memory

def key : Section → String
  | general => "general"
  | system => "system"
  | memory => "memory"

def get (c : Settings) : (sec : Section) → sec.Record
  | general => c.toGeneral
  | system => c.toSystem
  | memory => c.toMemory

def put (s : Settings) : (sec : Section) → sec.Record → Settings
  | general, r => { s with toGeneral := r }
  | system, r => { s with toSystem := r }
  | memory, r => { s with toMemory := r }

/-- What a section holds that is not there. -/
def default : (sec : Section) → sec.Record
  | general => ({} : General)
  | system => ({} : System)
  | memory => ({} : Memory)

/-- What a section holds that is there and gives nothing. -/
def unset : (sec : Section) → sec.Record
  | general => General.unset
  | system => System.unset
  | memory => Memory.unset

theorem get_put_self (sec : Section) (s : Settings) (r : sec.Record) : sec.get (sec.put s r) = r := by
  cases sec <;> rfl

theorem get_put_of_ne {sec sec' : Section} (h : sec' ≠ sec) (s : Settings) (r : sec.Record) :
    sec'.get (sec.put s r) = sec'.get s := by
  cases sec <;> cases sec' <;> first | rfl | exact absurd rfl h

theorem eq_of_get_eq {c c' : Settings} (h : ∀ sec : Section, sec.get c = sec.get c') : c = c' := by
  obtain ⟨g, t, m⟩ := c
  obtain ⟨g', t', m'⟩ := c'
  rw [Settings.mk.injEq]
  exact ⟨h .general, h .system, h .memory⟩

/-- Settings of which nothing is chosen, and those of a document without sections, are made of the
defaults of the sections. -/
theorem get_default (sec : Section) : sec.get {} = sec.default := by cases sec <;> rfl

theorem get_absent (sec : Section) : sec.get absent = sec.default := by cases sec <;> rfl

end Section

/-! ## Fields -/

/-- The fields of each section. -/
inductive Field : Section → Type where
  | tickLimit : Field .general
  | clockHz : Field .system
  | baudRate : Field .system
  | ramWords : Field .memory
  | ioSelectBit : Field .memory
  deriving DecidableEq

namespace Field

variable {sec : Section}

def key : Field sec → String
  | tickLimit => "tick_limit"
  | clockHz => "clock_hz"
  | baudRate => "baud_rate"
  | ramWords => "ram_words"
  | ioSelectBit => "io_select_bit"

/-- The numbers that a field may hold are those below. -/
def bound : Field sec → Nat
  | ioSelectBit => UInt32.size
  | _ => UInt64.size

/-- What a field holds that its section leaves out. -/
def fallback : Field sec → Nat
  | tickLimit => General.defaultTickLimit
  | clockHz => System.defaultClockHz
  | baudRate => System.defaultBaudRate
  | ramWords => Memory.defaultRamWords
  | ioSelectBit => Memory.defaultIoSelectBit

def get : {sec : Section} → sec.Record → Field sec → Nat
  | _, r, tickLimit => General.tickLimit r
  | _, r, clockHz => System.clockHz r
  | _, r, baudRate => System.baudRate r
  | _, r, ramWords => Memory.ramWords r
  | _, r, ioSelectBit => Memory.ioSelectBit r

def put : {sec : Section} → sec.Record → Nat → Field sec → sec.Record
  | _, r, n, tickLimit => ({ r with tickLimit := n } : General)
  | _, r, n, clockHz => ({ r with clockHz := n } : System)
  | _, r, n, baudRate => ({ r with baudRate := n } : System)
  | _, r, n, ramWords => ({ r with ramWords := n } : Memory)
  | _, r, n, ioSelectBit => ({ r with ioSelectBit := n } : Memory)

theorem get_put_self (f : Field sec) (r : sec.Record) (n : Nat) : f.get (f.put r n) = n := by
  cases f <;> rfl

theorem get_put_of_ne {f f' : Field sec} (h : f' ≠ f) (r : sec.Record) (n : Nat) :
    f'.get (f.put r n) = f'.get r := by
  cases f <;> cases f' <;> first | rfl | exact absurd rfl h

theorem eq_of_get_eq {r r' : sec.Record} (h : ∀ f : Field sec, f.get r = f.get r') : r = r' := by
  cases sec with
  | general => exact congrArg General.mk (h tickLimit)
  | system => exact congrArg₂ System.mk (h clockHz) (h baudRate)
  | memory => exact congrArg₂ Memory.mk (h ramWords) (h ioSelectBit)

theorem bound_le (f : Field sec) : f.bound ≤ UInt64.size := by cases f <;> decide

/-- A section that is there and gives nothing holds the default of each field. -/
theorem get_unset (f : Field sec) : f.get sec.unset = f.fallback := by cases f <;> rfl

/-- The defaults of a section that is not there are those of its fields. -/
theorem get_default (f : Field sec) : f.get sec.default = f.fallback := by cases f <;> rfl

/-- What a field holds in some settings. -/
def value (c : Settings) (f : Field sec) : Nat := f.get (sec.get c)

/-- The plain decimal of what a field holds. -/
def text (c : Settings) (f : Field sec) : List Char := Nat.toDigits 10 (f.value c)

/-- A field takes its value from other settings. -/
def update (c : Settings) (f : Field sec) (r : sec.Record) : sec.Record := f.put r (f.value c)

def entry (f : Field sec) : Entry sec.Record := numberField f.key f.bound fun r n => f.put r n

end Field

theorem eq_of_value_eq {c c' : Settings}
    (h : ∀ {sec : Section} (f : Field sec), f.value c = f.value c') : c = c' :=
  Section.eq_of_get_eq fun _ => Field.eq_of_get_eq h

/-- Every field holds a number that it may hold. -/
def InRange (c : Settings) : Prop := ∀ {sec : Section} (f : Field sec), f.value c < f.bound

namespace Section

def fields : (sec : Section) → List (Field sec)
  | general => [.tickLimit]
  | system => [.clockHz, .baudRate]
  | memory => [.ramWords, .ioSelectBit]

def schema (sec : Section) : Schema sec.Record (Field sec) where
  names := sec.fields
  entry := Field.entry
  nodup := by cases sec <;> decide

def entry (sec : Section) : Entry Settings :=
  recordField sec.key sec.schema.fields sec.unset sec.put

end Section

def schema : Schema Settings Section where
  names := [.general, .system, .memory]
  entry := Section.entry
  nodup := by decide

theorem sections_eq : sections = schema.fields := rfl

/-- The decimal of a number in range is taken for this number. -/
theorem Field.takes {c : Settings} (hc : c.InRange) {sec : Section} (f : Field sec) :
    Reader.Takes f.entry.read (f.text c) (f.update c) :=
  numberField_takes f.key (fun r n => f.put r n) (hc f) f.bound_le

/-! ## Layouts -/

/-- How each section is laid out, whatever the values of its fields are. -/
structure SectionForms where
  form : (sec : Section) → Form (Field sec)
  fits : ∀ sec, (form sec).Fits sec.schema

namespace SectionForms

variable (forms : SectionForms) (c : Settings) (sec : Section)

/-- A section of some settings in its layout. -/
def text : List Char := (forms.form sec).chars (Field.text c)

/-- What a section holds that is laid out so. -/
def held : sec.Record := updates (Field.update c) (forms.form sec).given sec.unset

/-- A section is replaced by what it holds in this layout. -/
def update (s : Settings) : Settings := sec.put s (forms.held c sec)

theorem takes {c : Settings} (hc : c.InRange) :
    Reader.Takes sec.entry.read (forms.text c sec) (forms.update c sec) :=
  recordField_takes sec.key sec.schema sec.unset sec.put (fun f _ => Field.takes hc f)
    (forms.fits sec)

theorem get_held (f : Field sec) :
    f.get (forms.held c sec) = if f ∈ (forms.form sec).given then f.value c else f.fallback := by
  rw [← f.get_unset]
  exact get_updates (fun f r => Field.get r f) (fun f r => f.get_put_self r (f.value c))
    (fun f _ r h => Field.get_put_of_ne h r (f.value c)) _ f _

end SectionForms

/-- How a document is laid out: which sections it gives, how, and how each of them is laid out. -/
structure Layout where
  lead : Gap
  root : Form Section
  root_fits : root.Fits schema
  sections : SectionForms
  trail : Gap

namespace Layout

variable (l : Layout) (c : Settings)

/-- The document of some settings in this layout. -/
def text : String :=
  String.ofList (l.lead.chars ++ (l.root.chars (l.sections.text c) ++ l.trail.chars))

/-- A field that is not left out, by itself or with its section. -/
def Gives {sec : Section} (f : Field sec) : Prop :=
  sec ∈ l.root.given ∧ f ∈ (l.sections.form sec).given

instance {sec : Section} (f : Field sec) : Decidable (l.Gives f) :=
  inferInstanceAs (Decidable (_ ∧ _))

/-- What is left out of a document has its default: that of its kind for a section that is not there,
and its own for each field that its section leaves out. -/
structure Defaulted : Prop where
  absent : ∀ sec, sec ∉ l.root.given → sec.get c = sec.default
  unset : ∀ sec ∈ l.root.given, ∀ f : Field sec, f ∉ (l.sections.form sec).given →
    f.value c = f.fallback

/-- The settings that a document in this layout comes to. -/
def held : Settings := updates (l.sections.update c) l.root.given absent

theorem ofDocument_eq_held {c : Settings} (hc : c.InRange) : ofDocument (l.text c) = .ok (l.held c) :=
  document_form schema (fun sec _ => l.sections.takes sec hc) l.root_fits l.lead l.trail absent

theorem get_held (sec : Section) :
    sec.get (l.held c) = if sec ∈ l.root.given then l.sections.held c sec else sec.default := by
  rw [← sec.get_absent]
  exact get_updates (fun sec s => Section.get s sec) (fun sec s => sec.get_put_self s _)
    (fun _ _ s h => Section.get_put_of_ne h s _) _ sec _

/-- A field that is left out has the same default, whether its section is there or not. -/
theorem value_held {sec : Section} (f : Field sec) :
    f.value (l.held c) = if l.Gives f then f.value c else f.fallback := by
  unfold Field.value Gives
  rw [get_held]
  by_cases hsec : sec ∈ l.root.given
  · simp [hsec, SectionForms.get_held, Field.value]
  · simp [hsec, f.get_default]

theorem held_eq_of_defaulted {c : Settings} (h : l.Defaulted c) : l.held c = c := by
  refine eq_of_value_eq fun {sec} f => ?_
  rw [value_held]
  by_cases hsec : sec ∈ l.root.given
  · by_cases hf : f ∈ (l.sections.form sec).given
    · exact if_pos ⟨hsec, hf⟩
    · rw [if_neg fun hgives => hf hgives.2, h.unset sec hsec f hf]
  · rw [if_neg fun hgives => hsec hgives.1, Field.value, h.absent sec hsec, f.get_default]

/-- What is read depends on the fields that are given alone. -/
theorem held_congr {l' : Layout} (h : ∀ {sec : Section} (f : Field sec), l'.Gives f ↔ l.Gives f) :
    l'.held c = l.held c := by
  refine eq_of_value_eq fun f => ?_
  rw [value_held, value_held]
  exact if_congr (h f) rfl rfl

/-- Settings are read from their document, whatever its layout, if what is left out has its default.
All layouts that give the same fields are read as the same settings, be a section left out or given
without its fields: the defaults of the settings are those of the sections, and these are those of the
fields. -/
theorem ofDocument_text {c : Settings} (hc : c.InRange) :
    (l.Defaulted c → ofDocument (l.text c) = .ok c) ∧
      (∃ c', ∀ l' : Layout, (∀ {sec : Section} (f : Field sec), l'.Gives f ↔ l.Gives f) →
        ofDocument (l'.text c) = .ok c') ∧
      ∀ sec : Section, sec.get {} = sec.default ∧ ∀ f : Field sec, f.get sec.default = f.fallback := by
  refine ⟨fun h => ?_, ⟨l.held c, fun l' h => ?_⟩, fun sec => ⟨sec.get_default, Field.get_default⟩⟩
  · rw [l.ofDocument_eq_held hc, l.held_eq_of_defaulted h]
  · rw [l'.ofDocument_eq_held hc, l.held_congr c h]

/-- Memory as an array and the serial line as an object, behind a key that no section has. -/
def mixed : Layout where
  lead := []
  root := .object
    [⟨[], .ofKey "x", .extra (.array [] (.number (.decimal 1))
        (.more [] [.space] (.emptyObject []) (.close [])))⟩,
      ⟨[], .ofKey "memory", .field .memory⟩, ⟨[.space], .ofKey "system", .field .system⟩] []
  root_fits := by
    refine ⟨?_, by decide⟩
    simp only [List.forall_mem_cons]
    exact ⟨⟨['x'], Name.spells_ofKey _, by decide⟩, ⟨by decide, Name.spells_ofKey _⟩,
      ⟨by decide, Name.spells_ofKey _⟩, nofun⟩
  sections :=
    { form := fun sec => match sec with
        | .general => .object [] []
        | .system => .object [⟨[], .ofKey "baud_rate", .field .baudRate⟩] []
        | .memory => .array [⟨[], [], .ramWords⟩, ⟨[], [], .ioSelectBit⟩] []
      fits := by
        rintro (_ | _ | _)
        · exact ⟨nofun, by decide⟩
        · refine ⟨?_, by decide⟩
          simp only [List.forall_mem_cons]
          exact ⟨⟨by decide, Name.spells_ofKey _⟩, nofun⟩
        · exact List.prefix_refl _ }
  trail := [.lineFeed]

/-- The same with all sections in their order. -/
def inOrder : Layout :=
  { mixed with
    root := .array [⟨[], [], .general⟩, ⟨[], [.space], .system⟩, ⟨[], [], .memory⟩] []
    root_fits := List.prefix_refl _ }

/-- The settings that are shown in these layouts. -/
def mixedSettings : Settings := { baudRate := 9600, ramWords := 2048, ioSelectBit := 20 }

theorem ofDocument_text_mixed :
    mixedSettings.InRange ∧ mixed.Defaulted mixedSettings ∧
      ofDocument
          "\x7b\"x\":[1, \x7b\x7d],\"memory\":[2048,20] ,\"system\":\x7b\"baud_rate\":9600\x7d\x7d\n" =
        .ok mixedSettings ∧
      (∀ {sec : Section} (f : Field sec), inOrder.Gives f ↔ mixed.Gives f) ∧
      ofDocument "[\x7b\x7d, \x7b\"baud_rate\":9600\x7d,[2048,20]]\n" = .ok mixedSettings := by
  have hrange : mixedSettings.InRange := by rintro _ (_ | _ | _ | _ | _) <;> decide
  have hdefaulted : mixed.Defaulted mixedSettings := by
    constructor
    · rintro (_ | _ | _) <;> decide
    · rintro _ hsec (_ | _ | _ | _ | _) <;> decide +revert
  have hgives : ∀ {sec : Section} (f : Field sec), inOrder.Gives f ↔ mixed.Gives f := by
    rintro _ (_ | _ | _ | _ | _) <;> decide
  obtain ⟨hmixed, ⟨c', hsame⟩, -⟩ := mixed.ofDocument_text hrange
  have hread := hmixed hdefaulted
  obtain rfl : c' = mixedSettings := Except.ok.inj ((hsame mixed fun _ => .rfl).symm.trans hread)
  refine ⟨hrange, hdefaulted, .trans (congrArg ofDocument ?_) hread, hgives,
    .trans (congrArg ofDocument ?_) (hsame inOrder hgives)⟩
  · decide +kernel
  · decide +kernel

example : ofDocument "\x7b\x7d" = .ok {} := rfl

end Layout

/-! ## Departures -/

/-- A text that starts with a number that the field does not take, and with what ends it. -/
def Field.Spoiled {sec : Section} (f : Field sec) (cs : List Char) : Prop :=
  ∃ (w : Numeric) (d : Char) (after : List Char), w.Misfits f.bound ∧
    (isBlank d = true ∨ d = ',' ∨ d = '}') ∧ cs = w.chars ++ d :: after

theorem Field.refuses {sec : Section} {f : Field sec} {cs : List Char} (h : f.Spoiled cs) :
    f.entry.read.Refuses cs := by
  obtain ⟨w, d, after, hmisfit, hd, rfl⟩ := h
  exact numberField_refuses f.key _ hmisfit (ends_cons (by tauto) after)

/-- A document that starts like one of some settings and departs from that by a key given twice, of a
section or of a field, or by a number that its field does not take, is refused whatever comes after. -/
theorem ofDocument_of_departs {c : Settings} (hc : c.InRange) (forms : SectionForms) (lead : Gap)
    {cs : List Char}
    (h : Departs schema (forms.text c)
      (fun sec => Departs sec.schema (Field.text c) Field.Spoiled) cs) :
    ofDocument (String.ofList (lead.chars ++ cs)) = .error .mismatch := by
  have hsection : ∀ sec ∈ schema.names, ∀ cs,
      Departs sec.schema (Field.text c) Field.Spoiled cs → (schema.entry sec).read.Refuses cs := by
    intro sec _ cs hcs
    have hfields : Reader.Refuses (record sec.schema.fields) cs :=
      hcs.refuses sec.schema (fun f _ => Field.takes hc f) fun f _ cs => Field.refuses
    exact recordField_refuses sec.key sec.schema sec.unset sec.put hfields
  have hroot := h.refuses schema (fun sec _ => forms.takes sec hc) hsection
  rw [ofDocument, sections_eq, document, String.toList_ofList, hroot lead absent]
  rfl

/-- A select bit that is legal but for a multiple of `2 ^ 32`, and a section given twice. -/
theorem ofDocument_of_departs_early :
    InRange {} ∧
      ofDocument "\x7b\"memory\":\x7b\"io_select_bit\":4294967318,?" = .error .mismatch ∧
      ofDocument "\n\x7b\"general\":\x7b\x7d,\"general\"?" = .error .mismatch := by
  have hrange : InRange {} := by rintro _ (_ | _ | _ | _ | _) <;> decide
  have hbit := @Departs.within _ _ Section.memory.schema (Field.text {}) Field.Spoiled [] nofun .nil []
    .ioSelectBit (by decide) List.not_mem_nil (.ofKey "io_select_bit") (Name.spells_ofKey _)
    "4294967318,?".toList ⟨.decimal 4294967318, ',', ['?'], ⟨rfl, by decide, .inr (.inr (by decide))⟩,
      .inr (.inl rfl), by decide⟩
  have hmemory := @Departs.within _ _ schema (Layout.mixed.sections.text {})
    (fun sec => Departs sec.schema (Field.text {}) Field.Spoiled) [] nofun .nil [] .memory
    (by decide) List.not_mem_nil (.ofKey "memory") (Name.spells_ofKey _) _ hbit
  have hgeneral : ∀ m ∈ [Member.mk [] (.ofKey "general") (.field Section.general)], m.Fits schema := by
    simp only [List.forall_mem_cons]
    exact ⟨⟨by decide, Name.spells_ofKey _⟩, nofun⟩
  have htwice := @Departs.repeated _ _ schema (Layout.mixed.sections.text {})
    (fun sec => Departs sec.schema (Field.text {}) Field.Spoiled) _ hgeneral (by decide) [] []
    .general (by decide) ("general".toList.map Piece.ofChar) (Pieces.spells_ofChar _) ['?']
  refine ⟨hrange, ?_, ?_⟩
  · exact ofDocument_of_departs hrange Layout.mixed.sections [] hmemory
  · exact ofDocument_of_departs hrange Layout.mixed.sections [.lineFeed] htwice

end Multicycle.Settings
