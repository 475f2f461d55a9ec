import TableLR.Table.Manifest
import TableLR.Proofs.Outcome
import TableLR.Proofs.Text.Fields
import Mathlib.Data.List.Induction
import Mathlib.Data.List.Perm.Basic

/-! The text form of a table set as a format: which lines say something, what a line tells, and
which names the lines may have. The reader accepts exactly the texts of this format, and reports
the first line that is wrong, or else the first name. -/
namespace TableLR.Manifest

def Numeral (text : String) (n : Nat) : Prop :=
  ∃ digits, (text.toList = digits ∨ text.toList = '+' :: digits) ∧ digits ≠ [] ∧
    (∀ c ∈ digits, c.isDigit) ∧ Nat.ofDigitChars 10 digits 0 = n ∧ n < sizeLimit

def Tells (line : String) (b : Blob) : Prop :=
  ∃ rows cols compressed uncompressed,
    Text.fields line = [b.name, rows, cols, compressed, uncompressed, b.payload] ∧
      Numeral rows b.rows ∧ Numeral cols b.cols ∧ Numeral compressed b.compressedSize ∧
        Numeral uncompressed b.uncompressedSize

def silent (line : String) : Bool :=
  (line.toList.find? fun c => !Text.isBlank c).all fun c => c = '#'

def said (text : String) : List (String × Nat) :=
  ((Text.lines text).zipIdx 1).filter fun line => !silent line.1

def Told (lines : List (String × Nat)) (blobs : List Blob) : Prop :=
  List.Forall₂ (fun line b => Tells line.1 b) lines blobs

/-- Line `k` is the first that tells nothing or repeats the name of an earlier line. -/
def FirstFault (lines : List (String × Nat)) (k : Nat) : Prop :=
  ∃ before line after told, lines = before ++ (line, k) :: after ∧
    Told before told ∧ (told.map Blob.name).Nodup ∧
      ((∀ b, ¬Tells line b) ∨ ∃ b, Tells line b ∧ b.name ∈ told.map Blob.name)

/-- What is wrong with a set of names: the first blob that is missing, and if none is, the least
name that is not one of the twelve. -/
inductive Wrong (names : List String) : ManifestFault → Prop where
  | missing {before after : List String} {name : String}
      (place : slotNames = before ++ name :: after) (present : ∀ other ∈ before, other ∈ names)
      (absent : name ∉ names) : Wrong names (.missing name)
  | unknown {name : String} (complete : ∀ other ∈ slotNames, other ∈ names)
      (present : name ∈ names) (strange : name ∉ slotNames)
      (least : ∀ other ∈ names, other ∉ slotNames → name ≤ other) : Wrong names (.unknown name)

variable {text line : String} {k n : Nat} {b : Blob} {lines : List (String × Nat)}
  {told blobs : List Blob} {names : List String} {fault : ManifestFault} {e : TableError}
  {m : Manifest}

theorem le_ofDigitChars (digits : List Char) (n : Nat) : n ≤ Nat.ofDigitChars 10 digits n := by
  induction digits generalizing n with
  | nil => simp
  | cons c rest ih =>
    rw [Nat.ofDigitChars_cons]
    have hle := ih (10 * n + (c.toNat - '0'.toNat))
    omega

theorem readDigits_eq_ok {digits : List Char} {start : Nat} (hstart : start < sizeLimit) :
    readDigits start digits = .ok n ↔
      (∀ c ∈ digits, c.isDigit) ∧ Nat.ofDigitChars 10 digits start = n ∧ n < sizeLimit := by
  induction digits generalizing start with
  | nil =>
    simp only [readDigits, Nat.ofDigitChars_nil, Except.ok.injEq]
    grind
  | cons c rest ih =>
    rw [readDigits, Nat.ofDigitChars_cons, List.forall_mem_cons]
    by_cases hc : c.isDigit
    · by_cases hlimit : 10 * start + (c.toNat - 48) < sizeLimit
      · simpa [hc, hlimit] using ih hlimit
      · -- more digits do not make the number smaller
        have hle : 10 * start + (c.toNat - 48) ≤
            Nat.ofDigitChars 10 rest (10 * start + (c.toNat - '0'.toNat)) := le_ofDigitChars _ _
        simp only [hc, hlimit, Bool.not_true, Bool.false_eq_true, if_false, reduceCtorEq, false_iff]
        omega
    · simp [hc]

theorem readNumber_eq_ok : readNumber text.toList = .ok n ↔ Numeral text n := by
  rw [Numeral]
  generalize text.toList = chars
  have hplus : ¬('+'.isDigit) := by decide
  fun_cases readNumber chars with
  | case1 => simp
  | case2 =>
    simp only [reduceCtorEq, false_iff]
    rintro ⟨digits, rfl | h, hne, hdigits, -⟩
    · exact hplus (hdigits '+' List.mem_cons_self)
    · exact hne (by simpa using h.symm)
  | case3 digits hne =>
    rw [readDigits_eq_ok (by decide)]
    constructor
    · intro h
      exact ⟨digits, Or.inr rfl, hne, h⟩
    · rintro ⟨digits', rfl | h, -, hdigits⟩
      · exact absurd (hdigits.1 '+' List.mem_cons_self) hplus
      · rw [List.cons_inj_right] at h
        exact h ▸ hdigits
  | case4 chars hne _ hsign =>
    rw [readDigits_eq_ok (by decide)]
    constructor
    · intro h
      exact ⟨chars, Or.inl rfl, hne, h⟩
    · rintro ⟨digits, rfl | h, -, hdigits⟩
      · exact hdigits
      · exact absurd h (hsign digits)

theorem field_eq_ok : field k text = .ok n ↔ Numeral text n := by
  rw [field, mapError_eq_ok, readNumber_eq_ok]

theorem readLine_eq_ok : readLine k (Text.fields line) = .ok b ↔ Tells line b := by
  rw [Tells]
  fun_cases readLine k (Text.fields line) with
  | case1 name rows cols compressed uncompressed payload =>
    simp only [bind_eq_ok, field_eq_ok, pure_eq, Except.ok.injEq]
    constructor
    · rintro ⟨_, hrows, _, hcols, _, hcompressed, _, huncompressed, rfl⟩
      exact ⟨rows, cols, compressed, uncompressed, rfl, hrows, hcols, hcompressed, huncompressed⟩
    · rintro ⟨_, _, _, _, hfields, hrows, hcols, hcompressed, huncompressed⟩
      cases hfields
      exact ⟨_, hrows, _, hcols, _, hcompressed, _, huncompressed, rfl⟩
  | case2 fields hfields =>
    simp only [throw_eq, reduceCtorEq, false_iff]
    rintro ⟨rows, cols, compressed, uncompressed, hsix, -⟩
    exact hfields _ _ _ _ _ _ hsix

theorem field_eq_error (h : field k text = .error e) : ∃ fault, e = .manifest k fault := by
  obtain ⟨reason, -, rfl⟩ := mapError_eq_error.mp h
  exact ⟨_, rfl⟩

theorem readLine_eq_error {fields : List String} (h : readLine k fields = .error e) :
    ∃ fault, e = .manifest k fault := by
  fun_cases readLine k fields with
  | case1 name rows cols compressed uncompressed payload =>
    simp only [readLine, bind_eq_error, pure_eq, reduceCtorEq, and_false, exists_false,
      or_false] at h
    obtain h | ⟨_, -, h | ⟨_, -, h | ⟨_, -, h⟩⟩⟩ := h
    all_goals exact field_eq_error h
  | case2 _ hfields =>
    rw [readLine] at h
    · cases h
      exact ⟨_, rfl⟩
    · exact hfields

theorem Tells.unique {b' : Blob} (h : Tells line b) (h' : Tells line b') : b = b' := by
  have hread := (readLine_eq_ok (k := 0)).mpr h
  rw [readLine_eq_ok.mpr h'] at hread
  cases hread
  rfl

theorem isComment_fields (line : String) : isComment (Text.fields line) = silent line := by
  have hhead := Text.head?_first_field line
  rw [silent, ← hhead]
  cases hfields : Text.fields line with
  | nil => rfl
  | cons first others =>
    have hfirst : first ∈ Text.fields line := hfields ▸ List.mem_cons_self
    obtain ⟨c, rest, hchars⟩ := List.exists_cons_of_ne_nil (Text.isWord_of_mem_fields hfirst).1
    rw [Bool.eq_iff_iff, isComment, String.startsWith_string_iff]
    simp [hchars, eq_comm]

theorem readLines_filter (seen : List Blob) (lines : List (String × Nat)) :
    readLines seen (lines.filter fun line => !silent line.1) = readLines seen lines := by
  induction lines generalizing seen with
  | nil => rfl
  | cons first rest ih =>
    obtain ⟨line, k⟩ := first
    by_cases hsilent : silent line
    · simp [readLines, isComment_fields, hsilent, ih]
    · simp [readLines, isComment_fields, hsilent, ih]

/-- The reader goes over lines that tell blobs of new names, and has seen these blobs then. -/
theorem readLines_append (seen : List Blob) (htold : Told lines told)
    (hspoken : ∀ line ∈ lines, silent line.1 = false)
    (hnew : ((seen ++ told).map Blob.name).Nodup) (rest : List (String × Nat)) :
    readLines seen (lines ++ rest) = readLines (told.reverse ++ seen) rest := by
  induction htold generalizing seen with
  | nil => rfl
  | @cons line b lines told hline htold ih =>
    have hfresh : ¬seen.any fun other => other.name = b.name := by
      rw [List.map_append, List.nodup_append] at hnew
      simpa using fun other hother => hnew.2.2 _ (List.mem_map_of_mem hother) _ (by simp)
    have hperm : (b :: seen ++ told).Perm (seen ++ b :: told) := List.perm_middle.symm
    have hrest := ih (b :: seen) (fun line hline => hspoken line (List.mem_cons_of_mem _ hline))
      (((hperm.map Blob.name).nodup_iff).mpr hnew)
    simpa [readLines, isComment_fields, hspoken, readLine_eq_ok.mpr hline, hfresh] using hrest

theorem readLines_of_told (htold : Told lines told)
    (hspoken : ∀ line ∈ lines, silent line.1 = false) (hnames : (told.map Blob.name).Nodup) :
    readLines [] lines = .ok told := by
  simpa [readLines] using readLines_append [] htold hspoken hnames []

theorem readLines_of_firstFault (hfault : FirstFault lines k)
    (hspoken : ∀ line ∈ lines, silent line.1 = false) :
    ∃ fault, readLines [] lines = .error (.manifest k fault) := by
  obtain ⟨before, line, after, told, rfl, htold, hnames, hfault⟩ := hfault
  have hline : silent line = false := hspoken (line, k) (by simp)
  have hbefore : ∀ line ∈ before, silent line.1 = false :=
    fun line hline => hspoken line (List.mem_append_left _ hline)
  rw [readLines_append [] htold hbefore hnames, readLines, isComment_fields, hline]
  cases hread : readLine k (Text.fields line) with
  | error e =>
    obtain ⟨fault, rfl⟩ := readLine_eq_error hread
    exact ⟨fault, rfl⟩
  | ok b =>
    have hb := readLine_eq_ok.mp hread
    have hrepeats : b.name ∈ told.map Blob.name := by
      cases hfault with
      | inl h => exact absurd hb (h b)
      | inr h =>
        obtain ⟨b', hb', hname⟩ := h
        exact hb.unique hb' ▸ hname
    have hseen : (told.reverse ++ []).any fun other => other.name = b.name := by
      simpa using hrepeats
    exact ⟨.duplicate b.name, if_pos hseen⟩

/-- Line by line: either all lines so far tell blobs of different names, or there is a first that
is wrong. -/
theorem told_or_firstFault (lines : List (String × Nat)) :
    (∃ told, Told lines told ∧ (told.map Blob.name).Nodup) ∨ ∃ k, FirstFault lines k := by
  induction lines using List.reverseRecOn with
  | nil => exact Or.inl ⟨[], .nil, List.nodup_nil⟩
  | append_singleton lines last ih =>
    cases ih with
    | inr h =>
      obtain ⟨k, before, line, after, told, rfl, h⟩ := h
      exact Or.inr ⟨k, before, line, after ++ [last], told, by simp, h⟩
    | inl h =>
      obtain ⟨told, htold, hnames⟩ := h
      by_cases hlast : ∃ b, Tells last.1 b ∧ b.name ∉ told.map Blob.name
      · obtain ⟨b, hb, hname⟩ := hlast
        refine Or.inl ⟨told ++ [b], List.rel_append htold (.cons hb .nil), ?_⟩
        rw [List.map_append]
        exact List.nodup_append.mpr ⟨hnames, by simp, by grind⟩
      · refine Or.inr ⟨last.2, lines, last.1, [], told, rfl, htold, hnames, ?_⟩
        grind

def named (blobs : List Blob) (name : String) : Blob :=
  (blobs.find? fun b => b.name = name).getD ⟨name, 0, 0, 0, 0, ""⟩

def ofNames (blob : String → Blob) : Manifest :=
  let parts table : SparseTable.Encoded :=
    ⟨blob (table ++ ".sigmap"), blob (table ++ ".rowmap"), blob (table ++ ".columnmap"),
      blob (table ++ ".value")⟩
  ⟨parts "action", parts "goto", parts "recovery"⟩

theorem slots_ofNames (blob : String → Blob) :
    (ofNames blob).slots = slotNames.map fun name => (name, blob name) := rfl

theorem map_fst_slots (m : Manifest) : m.slots.map Prod.fst = slotNames := rfl

theorem eq_of_slots {m m' : Manifest} (h : m.slots = m'.slots) : m = m' := by
  obtain ⟨⟨_, _, _, _⟩, ⟨_, _, _, _⟩, ⟨_, _, _, _⟩⟩ := m
  obtain ⟨⟨_, _, _, _⟩, ⟨_, _, _, _⟩, ⟨_, _, _, _⟩⟩ := m'
  simpa [slots, partsOf, tableNames, partNames, and_assoc] using h

def unlessMissing {α : Type} (blobs : List Blob) (wanted : List String)
    (result : Except TableError α) : Except TableError α :=
  match wanted.find? fun name => name ∉ blobs.map Blob.name with
  | some name => .error (.manifest 0 (.missing name))
  | none => result

theorem take_bind {α : Type} {name : String} {wanted : List String}
    {next : Blob → Except TableError α} {result : Except TableError α}
    (h : next (named blobs name) = unlessMissing blobs wanted result) :
    take blobs name >>= next = unlessMissing blobs (name :: wanted) result := by
  rw [unlessMissing, List.find?_cons, take]
  cases hfind : blobs.find? fun b => b.name = name with
  | none =>
    have habsent : name ∉ blobs.map Blob.name := by
      simpa using List.find?_eq_none.mp hfind
    simp only [habsent]
    rfl
  | some b =>
    have hpresent : name ∈ blobs.map Blob.name := by
      have hname : b.name = name := by simpa using List.find?_some hfind
      exact hname ▸ List.mem_map_of_mem (List.mem_of_find?_eq_some hfind)
    have hnamed : named blobs name = b := by rw [named, hfind, Option.getD_some]
    simp only [hpresent]
    exact hnamed ▸ h

theorem ofBlobs_eq (blobs : List Blob) :
    ofBlobs blobs = unlessMissing blobs slotNames
      (match unknownName? blobs with
        | some name => .error (.manifest 0 (.unknown name))
        | none => .ok (ofNames (named blobs))) := by
  simp only [ofBlobs, gather, bind_assoc, pure_bind]
  iterate 12 apply take_bind
  rfl

theorem head?_mergeSort_eq_none :
    (names.mergeSort fun a b => a ≤ b).head? = none ↔ names = [] := by
  rw [List.head?_eq_none_iff, ← List.length_eq_zero_iff, List.length_mergeSort,
    List.length_eq_zero_iff]

/-- The first of the sorted names is the least. -/
theorem head?_mergeSort_eq_some {name : String} :
    (names.mergeSort fun a b => a ≤ b).head? = some name ↔
      name ∈ names ∧ ∀ other ∈ names, name ≤ other := by
  have hsorted : (names.mergeSort fun a b => a ≤ b).Pairwise fun a b => decide (a ≤ b) = true :=
    List.pairwise_mergeSort (by simpa using fun a b c => String.le_trans)
      (by simpa using String.le_total) names
  have hmem : ∀ other, other ∈ (names.mergeSort fun a b => a ≤ b) ↔ other ∈ names :=
    fun other => List.mem_mergeSort
  cases hnames : names.mergeSort fun a b => a ≤ b with
  | nil =>
    rw [hnames] at hmem
    simp [← hmem]
  | cons first rest =>
    rw [hnames] at hsorted hmem
    have hfirst : ∀ other ∈ names, first ≤ other := by
      intro other hother
      cases List.mem_cons.mp ((hmem other).mpr hother) with
      | inl h => exact h ▸ String.le_refl other
      | inr h => simpa using List.rel_of_pairwise_cons hsorted h
    have hmember : first ∈ names := (hmem first).mp List.mem_cons_self
    rw [List.head?_cons, Option.some.injEq]
    constructor
    · rintro rfl
      exact ⟨hmember, hfirst⟩
    · rintro ⟨hname, hleast⟩
      exact String.le_antisymm (hfirst name hname) (hleast first hmember)

theorem unknownName?_eq_none :
    unknownName? blobs = none ↔ ∀ name ∈ blobs.map Blob.name, name ∈ slotNames := by
  rw [unknownName?, head?_mergeSort_eq_none, List.filter_eq_nil_iff]
  simp

theorem unknownName?_eq_some {name : String} :
    unknownName? blobs = some name ↔ name ∈ blobs.map Blob.name ∧ name ∉ slotNames ∧
      ∀ other ∈ blobs.map Blob.name, other ∉ slotNames → name ≤ other := by
  rw [unknownName?, head?_mergeSort_eq_some]
  simp [and_assoc]

theorem ofBlobs_of_wrong (h : Wrong (blobs.map Blob.name) fault) :
    ofBlobs blobs = .error (.manifest 0 fault) := by
  rw [ofBlobs_eq, unlessMissing]
  cases h with
  | @missing before after name place present absent =>
    have hfind : (slotNames.find? fun name => name ∉ blobs.map Blob.name) = some name :=
      List.find?_eq_some_iff_append.mpr
        ⟨by simpa using absent, before, after, place, by simpa using present⟩
    rw [hfind]
  | unknown complete present strange least =>
    have hfind : (slotNames.find? fun name => name ∉ blobs.map Blob.name) = none :=
      List.find?_eq_none.mpr (by simpa using complete)
    rw [hfind, unknownName?_eq_some.mpr ⟨present, strange, least⟩]

theorem find?_of_nodup (hnames : (blobs.map Blob.name).Nodup) (hb : b ∈ blobs) :
    (blobs.find? fun other => other.name = b.name) = some b := by
  induction blobs with
  | nil => cases hb
  | cons first rest ih =>
    rw [List.map_cons, List.nodup_cons] at hnames
    cases List.mem_cons.mp hb with
    | inl h => simp [h]
    | inr h =>
      have hne : first.name ≠ b.name := fun heq => hnames.1 (heq ▸ List.mem_map_of_mem h)
      simpa [hne] using ih hnames.2 h

theorem nodup_slotNames : slotNames.Nodup := by
  decide

theorem ofBlobs_of_perm (h : (blobs.map Blob.name).Perm slotNames) :
    ∃ m, ofBlobs blobs = .ok m ∧ m.slots.Perm (blobs.map fun b => (b.name, b)) := by
  have hfind : (slotNames.find? fun name => name ∉ blobs.map Blob.name) = none :=
    List.find?_eq_none.mpr fun name hname => by simpa using h.mem_iff.mpr hname
  have hknown : unknownName? blobs = none :=
    unknownName?_eq_none.mpr fun name hname => h.mem_iff.mp hname
  have hnamed : ∀ b ∈ blobs, named blobs b.name = b := by
    intro b hb
    rw [named, find?_of_nodup (h.nodup_iff.mpr nodup_slotNames) hb, Option.getD_some]
  refine ⟨ofNames (named blobs), by rw [ofBlobs_eq, unlessMissing, hfind, hknown], ?_⟩
  calc (ofNames (named blobs)).slots
      = slotNames.map fun name => (name, named blobs name) := slots_ofNames _
    _ |>.Perm ((blobs.map Blob.name).map fun name => (name, named blobs name)) := h.symm.map _
    _ = blobs.map fun b => (b.name, b) := by
      rw [List.map_map]
      exact List.map_congr_left fun b hb => by simp [hnamed b hb]

theorem perm_or_wrong (hnames : names.Nodup) :
    names.Perm slotNames ∨ ∃ fault, Wrong names fault := by
  cases hfind : slotNames.find? fun name => name ∉ names with
  | some name =>
    obtain ⟨habsent, before, after, place, hpresent⟩ := List.find?_eq_some_iff_append.mp hfind
    exact Or.inr ⟨_, .missing place (by simpa using hpresent) (by simpa using habsent)⟩
  | none =>
    have hcomplete : ∀ name ∈ slotNames, name ∈ names := by
      simpa using List.find?_eq_none.mp hfind
    cases hleast :
      ((names.filter fun name => name ∉ slotNames).mergeSort fun a b => a ≤ b).head? with
    | some name =>
      rw [head?_mergeSort_eq_some] at hleast
      simp only [List.mem_filter, decide_eq_true_eq] at hleast
      exact Or.inr ⟨_, .unknown hcomplete hleast.1.1 hleast.1.2
        fun other hother hstrange => hleast.2 other ⟨hother, hstrange⟩⟩
    | none =>
      have hknown : ∀ name ∈ names, name ∈ slotNames := by
        rw [head?_mergeSort_eq_none, List.filter_eq_nil_iff] at hleast
        simpa using hleast
      exact Or.inl ((List.perm_ext_iff_of_nodup hnames nodup_slotNames).mpr
        fun name => ⟨hknown name, hcomplete name⟩)

theorem Wrong.not_perm (h : Wrong names fault) : ¬names.Perm slotNames := by
  intro hperm
  cases h with
  | missing place present absent =>
    exact absent (hperm.mem_iff.mpr (place ▸ by simp))
  | unknown complete present strange least =>
    exact strange (hperm.mem_iff.mp present)

theorem said_spoken (text : String) : ∀ line ∈ said text, silent line.1 = false := by
  intro line hline
  simpa using (List.mem_filter.mp hline).2

theorem pos_of_said (h : (line, k) ∈ said text) : 0 < k := by
  have hplace := List.le_snd_of_mem_zipIdx (List.mem_filter.mp h).1
  exact hplace

theorem ofText_eq (text : String) : ofText text = readLines [] (said text) >>= ofBlobs := by
  rw [said, readLines_filter]
  rfl

theorem ofText_of_told (htold : Told (said text) told) (hnames : (told.map Blob.name).Nodup) :
    ofText text = ofBlobs told := by
  rw [ofText_eq, readLines_of_told htold (said_spoken text) hnames]
  rfl

theorem ofText_of_firstFault (h : FirstFault (said text) k) :
    ∃ fault, ofText text = .error (.manifest k fault) := by
  obtain ⟨fault, hread⟩ := readLines_of_firstFault h (said_spoken text)
  exact ⟨fault, by rw [ofText_eq, hread]; rfl⟩

theorem FirstFault.pos (h : FirstFault (said text) k) : 0 < k := by
  obtain ⟨before, line, after, told, hsaid, -⟩ := h
  have hline : (line, k) ∈ said text := by simp [hsaid]
  exact pos_of_said hline

/-- The three ways in which reading a text ends. -/
theorem ofText_cases (text : String) :
    (∃ told m, Told (said text) told ∧ (told.map Blob.name).Perm slotNames ∧
      ofText text = .ok m ∧ m.slots.Perm (told.map fun b => (b.name, b))) ∨
    (∃ told fault, Told (said text) told ∧ (told.map Blob.name).Nodup ∧
      Wrong (told.map Blob.name) fault ∧ ofText text = .error (.manifest 0 fault)) ∨
    ∃ k fault, FirstFault (said text) k ∧ ofText text = .error (.manifest k fault) := by
  cases told_or_firstFault (said text) with
  | inr h =>
    obtain ⟨k, hfault⟩ := h
    obtain ⟨fault, htext⟩ := ofText_of_firstFault hfault
    exact Or.inr (Or.inr ⟨k, fault, hfault, htext⟩)
  | inl h =>
    obtain ⟨told, htold, hnames⟩ := h
    have htext := ofText_of_told htold hnames
    cases perm_or_wrong hnames with
    | inl hperm =>
      obtain ⟨m, hblobs, hslots⟩ := ofBlobs_of_perm hperm
      exact Or.inl ⟨told, m, htold, hperm, htext.trans hblobs, hslots⟩
    | inr hwrong =>
      obtain ⟨fault, hwrong⟩ := hwrong
      exact Or.inr (Or.inl ⟨told, fault, htold, hnames, hwrong,
        htext.trans (ofBlobs_of_wrong hwrong)⟩)

/-- A table set is determined by its blobs under their names, in any order. -/
theorem eq_of_slots_perm {m m' : Manifest} (h : m.slots.Perm m'.slots) : m = m' := by
  have hordered : slotNames.Pairwise fun a b => slotNames.idxOf a < slotNames.idxOf b := by decide
  have hslots : ∀ m : Manifest, m.slots.Pairwise fun a b =>
      slotNames.idxOf a.1 < slotNames.idxOf b.1 :=
    fun m => List.Pairwise.of_map Prod.fst (fun _ _ hlt => hlt) hordered
  apply eq_of_slots
  apply h.eq_of_pairwise _ (hslots m) (hslots m')
  intro a b _ _ hlt hgt
  omega

theorem ofText_eq_ok : ofText text = .ok m ↔
    ∃ told, Told (said text) told ∧ m.slots.Perm (told.map fun b => (b.name, b)) := by
  constructor
  · intro htext
    obtain ⟨told, m', htold, -, h, hslots⟩ | ⟨_, _, -, -, -, h⟩ | ⟨_, _, -, h⟩ := ofText_cases text
    · rw [h] at htext
      cases htext
      exact ⟨told, htold, hslots⟩
    all_goals
      rw [h] at htext
      cases htext
  · rintro ⟨told, htold, hslots⟩
    have hperm : slotNames.Perm (told.map Blob.name) := by
      simpa [map_fst_slots, Function.comp_def] using hslots.map Prod.fst
    obtain ⟨m', hblobs, hslots'⟩ := ofBlobs_of_perm hperm.symm
    rw [ofText_of_told htold (hperm.nodup_iff.mp nodup_slotNames), hblobs,
      eq_of_slots_perm (hslots.trans hslots'.symm)]

theorem ofText_eq_lineFault (hk : 0 < k) :
    (∃ fault, ofText text = .error (.manifest k fault)) ↔ FirstFault (said text) k := by
  constructor
  · rintro ⟨fault, htext⟩
    obtain ⟨_, _, -, -, h, -⟩ | ⟨_, _, -, -, -, h⟩ | ⟨k', _, hfault, h⟩ := ofText_cases text
    all_goals
      rw [h] at htext
      cases htext
    · exact absurd hk (Nat.lt_irrefl 0)
    · exact hfault
  · intro hfault
    exact ofText_of_firstFault hfault

theorem ofText_eq_wholeFault :
    ofText text = .error (.manifest 0 fault) ↔
      ∃ told, Told (said text) told ∧ (told.map Blob.name).Nodup ∧
        Wrong (told.map Blob.name) fault := by
  constructor
  · intro htext
    obtain ⟨_, _, -, -, h, -⟩ | ⟨told, _, htold, hnames, hwrong, h⟩ | ⟨k, _, hfault, h⟩ :=
      ofText_cases text
    all_goals
      rw [h] at htext
      cases htext
    · exact ⟨told, htold, hnames, hwrong⟩
    · exact absurd hfault.pos (Nat.lt_irrefl 0)
  · rintro ⟨told, htold, hnames, hwrong⟩
    rw [ofText_of_told htold hnames, ofBlobs_of_wrong hwrong]

theorem manifest_of_ofText_error (h : ofText text = .error e) :
    ∃ k fault, e = .manifest k fault := by
  obtain ⟨_, _, -, -, htext, -⟩ | ⟨_, fault, -, -, -, htext⟩ | ⟨k, fault, -, htext⟩ :=
    ofText_cases text
  all_goals
    rw [htext] at h
    cases h
  · exact ⟨0, fault, rfl⟩
  · exact ⟨k, fault, rfl⟩

theorem Told.perm {lines' : List (String × Nat)} (h : Told lines told)
    (hperm : (lines'.map Prod.fst).Perm (lines.map Prod.fst)) :
    ∃ told', Told lines' told' ∧ told'.Perm told := by
  have htold : List.Forall₂ Tells (lines.map Prod.fst) told := List.forall₂_map_left_iff.mpr h
  obtain ⟨told', htold', hperm'⟩ := List.perm_comp_forall₂ hperm htold
  exact ⟨told', List.forall₂_map_left_iff.mp htold', hperm'⟩

/-- Lines may be put in another order, and silent ones added or left out. -/
theorem ofText_of_perm {other : String}
    (hperm : ((said other).map Prod.fst).Perm ((said text).map Prod.fst))
    (h : ofText text = .ok m) : ofText other = .ok m := by
  obtain ⟨told, htold, hslots⟩ := ofText_eq_ok.mp h
  obtain ⟨told', htold', hperm'⟩ := htold.perm hperm
  exact ofText_eq_ok.mpr ⟨told', htold', hslots.trans (hperm'.symm.map _)⟩

theorem exists_ofText : (∃ m, ofText text = .ok m) ↔
    ∃ told, Told (said text) told ∧ (told.map Blob.name).Perm slotNames := by
  constructor
  · rintro ⟨m, h⟩
    obtain ⟨told, htold, hslots⟩ := ofText_eq_ok.mp h
    have hperm := hslots.map Prod.fst
    exact ⟨told, htold, by simpa [map_fst_slots, Function.comp_def] using hperm.symm⟩
  · rintro ⟨told, htold, hperm⟩
    obtain ⟨m, hblobs, -⟩ := ofBlobs_of_perm hperm
    exact ⟨m, by rw [ofText_of_told htold (hperm.nodup_iff.mpr nodup_slotNames), hblobs]⟩

theorem accepts_exactly_its_format (text : String) :
    ((∃ m, ofText text = .ok m) ↔
      ∃ told, Told (said text) told ∧ (told.map Blob.name).Perm slotNames) ∧
    (∀ m, ofText text = .ok m ↔
      ∃ told, Told (said text) told ∧ m.slots.Perm (told.map fun b => (b.name, b))) ∧
    (∀ other m, ((said other).map Prod.fst).Perm ((said text).map Prod.fst) →
      ofText text = .ok m → ofText other = .ok m) ∧
    (∀ k > 0, (∃ fault, ofText text = .error (.manifest k fault)) ↔ FirstFault (said text) k) ∧
    ((∃ fault, ofText text = .error (.manifest 0 fault)) ↔
      ∃ told, Told (said text) told ∧ (told.map Blob.name).Nodup ∧
        ¬(told.map Blob.name).Perm slotNames) ∧
    (∀ fault, ofText text = .error (.manifest 0 fault) →
      ∃ told, Told (said text) told ∧ Wrong (told.map Blob.name) fault) ∧
    ∀ e, ofText text = .error e → ∃ k fault, e = .manifest k fault := by
  refine ⟨exists_ofText, fun m => ofText_eq_ok, fun other m => ofText_of_perm,
    fun k => ofText_eq_lineFault, ⟨?_, ?_⟩, ?_, fun e => manifest_of_ofText_error⟩
  · rintro ⟨fault, h⟩
    obtain ⟨told, htold, hnames, hwrong⟩ := ofText_eq_wholeFault.mp h
    exact ⟨told, htold, hnames, hwrong.not_perm⟩
  · rintro ⟨told, htold, hnames, hperm⟩
    obtain ⟨fault, hwrong⟩ := (perm_or_wrong hnames).resolve_left hperm
    exact ⟨fault, ofText_eq_wholeFault.mpr ⟨told, htold, hnames, hwrong⟩⟩
  · intro fault h
    obtain ⟨told, htold, -, hwrong⟩ := ofText_eq_wholeFault.mp h
    exact ⟨told, htold, hwrong⟩

example : ofText "\n \naction.sigmap 1 2\ngoto.value\n" = .error (.manifest 3 .fieldCount) := by
  decide +kernel

end TableLR.Manifest
