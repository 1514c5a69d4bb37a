import Schnauzer.Common.YamlBlock

/-!
# Saved configurations

`common/YamlDumper`: the text that `YamlValue::save` writes. A blank is written behind every colon, also in front of a
table, and `parseImpl` takes a line with a blank behind its colon for a leaf. The tables of a saved tree are thus read
as empty strings, and what is in them as entries of the whole.

## What is proved

* `Valid.dumpTable_lines` — every line of a saved tree is empty, or a leaf for the parser.
* `parse_save_iff` — when a saved tree is parsed as itself.
* `loggerTable_not_parsed` — a table in a table is lost.
-/

namespace Schnauzer

namespace Yaml

open Iostream

/-! ### The dumper -/

/-- A string that is printed from its `c_str()`. -/
def cStr (s : List Char) : List Char := s.takeWhile (· ≠ Char.ofNat 0)

/-- `%ld`. -/
def decimalInt (i : ℤ) : List Char := if i < 0 then '-' :: Text.decimal i.natAbs else Text.decimal i.natAbs

/-- `getType() == Value::YAML`. -/
def Value.isYaml : Value → Bool
  | .yaml _ => true
  | _ => false

mutual

/-- `YamlFileDumper::dump`, with `level_`. -/
def dump (level : ℕ) : Value → List Char
  | .number v => decimalInt v
  | .bool v => boolText v
  | .string v => cStr v
  | .vector v => '[' :: (v.flatMap fun i => decimalInt i ++ [',', ' ']) ++ [']']
  | .yaml table => dumpTable level table

/-- `YamlFileDumper::dump` of a `YamlValue`. -/
def dumpTable (level : ℕ) : List (List Char × Value) → List Char
  | [] => []
  | (k, v) :: table =>
    indent level ++ cStr k ++ [':', ' '] ++ (if v.isYaml then ['\n'] else []) ++ dump (level + 2) v ++ ['\n'] ++
      dumpTable level table

end

/-- `YamlValue::save`. -/
def save (table : Table) : List Char := dumpTable 0 table

variable {v : Value} {s text key : List Char} {level n : ℕ} {ns : List ℕ} {table t t' : Table}
  {ls rest : List (List Char)} {es : List (List Char × List Char)}

/-! ### Leaves -/

theorem cStr_eq_self_iff : cStr s = s ↔ Char.ofNat 0 ∉ s := by
  rw [cStr, List.takeWhile_eq_self_iff]
  simp only [decide_eq_true_eq]
  exact ⟨fun h hmem => h _ hmem rfl, fun h c hc hzero => h (hzero ▸ hc)⟩

theorem cStr_key (hkey : IsKey key) : cStr key = key :=
  cStr_eq_self_iff.mpr fun hmem => absurd (hkey.chars _ hmem) (by decide)

theorem oneLine_cStr (h : OneLine s) : OneLine (cStr s) := fun c hc => h c ((List.takeWhile_prefix _).subset hc)

theorem decimalInt_natCast : decimalInt n = Text.decimal n := by
  rw [decimalInt, if_neg (by omega), Int.natAbs_natCast]

theorem dump_vector : dump level (.vector (ns.map Nat.cast)) = vectorText ns := by
  simp only [dump, vectorText, List.flatMap_map, decimalInt_natCast]

/-- The text of a leaf is a line. -/
theorem oneLine_dump (h : Valid v) (hleaf : v.isYaml = false) : OneLine (dump level v) := by
  cases h with
  | number hn =>
    rw [dump, decimalInt_natCast]
    exact oneLine_decimal
  | bool b =>
    rw [dump]
    cases b <;> decide
  | vector hns =>
    rw [dump_vector]
    exact oneLine_vectorText
  | string h => exact oneLine_cStr h.line
  | yaml hsorted hkeys hvalues => cases hleaf

/-- A leaf without `'\0'` is printed as it is written. -/
theorem leafText_dump (h : Valid v) (hleaf : v.isYaml = false) (hnul : ∀ s, v = .string s → Char.ofNat 0 ∉ s) :
    LeafText v (dump level v) := by
  cases h with
  | number hn =>
    rw [dump, decimalInt_natCast]
    exact .number hn
  | bool b => exact .bool b
  | vector hns =>
    rw [dump_vector]
    exact .vector rfl (vectorText_spec hns) oneLine_vectorText
  | string h =>
    rw [dump, cStr_eq_self_iff.mpr (hnul _ rfl)]
    exact .string h
  | yaml hsorted hkeys hvalues => cases hleaf

/-- A text that is read as a string is that string. -/
theorem eq_of_buildValue_string (h : buildValue text = .ok (.string s)) : text = s := by
  unfold buildValue at h
  split_ifs at h
  · cases hn : stoll text <;> rw [hn] at h <;> cases h
  · cases hn : parseVector text <;> rw [hn] at h <;> cases h
  · cases h
  · cases h
  · cases h
    rfl

/-- No text is read as a table. -/
theorem isYaml_of_buildValue (h : buildValue text = .ok v) : v.isYaml = false := by
  unfold buildValue at h
  split_ifs at h
  · cases hn : stoll text <;> rw [hn] at h <;> cases h
    rfl
  · cases hn : parseVector text <;> rw [hn] at h <;> cases h
    rfl
  · cases h
    rfl
  · cases h
    rfl
  · cases h
    rfl

/-! ### Lines -/

/-- Lines that are empty or leaves, with the keys and the texts of the leaves. -/
inductive LeafLines : List (List Char × List Char) → List (List Char) → Prop where
  | nil : LeafLines [] []
  | blank {es : List (List Char × List Char)} {ls : List (List Char)} (h : LeafLines es ls) : LeafLines es ([] :: ls)
  | leaf {level : ℕ} {key text : List Char} {es : List (List Char × List Char)} {ls : List (List Char)}
      (hkey : IsKey key) (htext : OneLine text) (h : LeafLines es ls) :
      LeafLines ((key, text) :: es) (leafLine level key text :: ls)

theorem LeafLines.append {es' : List (List Char × List Char)} {ls' : List (List Char)} (h : LeafLines es ls)
    (h' : LeafLines es' ls') : LeafLines (es ++ es') (ls ++ ls') := by
  induction h with
  | nil => exact h'
  | blank h ih => exact .blank ih
  | leaf hkey htext h ih => exact .leaf hkey htext ih

theorem LeafLines.newline_not_mem (h : LeafLines es ls) : ∀ line ∈ ls, '\n' ∉ line := by
  induction h with
  | nil => exact nofun
  | blank h ih => exact List.forall_mem_cons.mpr ⟨List.not_mem_nil, ih⟩
  | leaf hkey htext h ih => exact List.forall_mem_cons.mpr ⟨newline_not_mem_leafLine hkey htext, ih⟩

/-- **The parser on such lines** puts what it reads into one table. -/
theorem LeafLines.parses_iff (h : LeafLines es ls) : Parses 0 t ls t' [] ↔
    ∃ vs : Table, t' = putAll vs t ∧ es.map (fun e => (e.1, buildValue e.2)) = vs.map fun p => (p.1, .ok p.2) := by
  constructor
  · intro hparses
    induction h generalizing t with
    | nil =>
      cases hparses
      exact ⟨[], rfl, rfl⟩
    | blank h ih =>
      cases hparses with
      | blank hparses => exact ih hparses
      | leaf hne | sub hne => exact absurd rfl hne
    | @leaf level key text es ls hkey htext h ih =>
      have hline : lineKind (leafLine level key text) = .leaf key text := lineKind_leafLine hkey htext
      generalize hl : leafLine level key text = line at hparses hline
      cases hparses with
      | blank => exact absurd hl leafLine_ne_nil
      | sub hne hspace hkind =>
        rw [hline] at hkind
        cases hkind
      | leaf hne hspace hkind hv hparses =>
        rw [hline] at hkind
        cases hkind
        obtain ⟨vs, rfl, hvs⟩ := ih hparses
        exact ⟨(key, _) :: vs, rfl, by rw [List.map_cons, hv, hvs, List.map_cons]⟩
  · rintro ⟨vs, rfl, hvs⟩
    induction h generalizing t vs with
    | nil =>
      obtain rfl := List.map_eq_nil_iff.mp hvs.symm
      exact .done
    | blank h ih => exact .blank (ih vs hvs)
    | leaf hkey htext h ih =>
      obtain ⟨⟨_, v⟩, vs, rfl, hp, htail⟩ := List.map_eq_cons_iff.mp hvs.symm
      obtain ⟨rfl, hv⟩ := Prod.ext_iff.mp hp
      exact .leaf leafLine_ne_nil (isStartswithSpace_mono (Nat.zero_le _) (isStartswithSpace_indent _))
        (lineKind_leafLine hkey htext) hv.symm (ih vs htail.symm)

/-- **The lines of a saved tree**; those of a tree without tables are its leaves. -/
theorem Valid.dumpTable_lines (h : Valid (.yaml table)) (level : ℕ) :
    ∃ es ls, dumpTable level table = ls.flatMap (· ++ ['\n']) ∧ LeafLines es ls ∧
      ((∀ p ∈ table, p.2.isYaml = false) → es = table.map fun p => (p.1, dump (level + 2) p.2)) := by
  generalize hv : Value.yaml table = v at h
  induction h generalizing table level with
  | number | bool | vector | string => cases hv
  | @yaml table hsorted hkeys hvalues ih =>
    cases hv
    clear hsorted
    induction table with
    | nil => exact ⟨[], [], rfl, .nil, fun _ => rfl⟩
    | cons p table ihtable =>
      rw [List.forall_mem_cons] at hkeys hvalues ih
      obtain ⟨es, ls, htext, hls, hflat⟩ := ihtable hkeys.2 hvalues.2 ih.2
      obtain ⟨key, v⟩ := p
      cases hleaf : v.isYaml with
      | false =>
        refine ⟨(key, dump (level + 2) v) :: es, leafLine level key (dump (level + 2) v) :: ls, ?_,
          .leaf hkeys.1 (oneLine_dump hvalues.1 hleaf) hls, fun hall => ?_⟩
        · simp [dumpTable, leafLine, hleaf, cStr_key hkeys.1, htext]
        · rw [List.forall_mem_cons] at hall
          rw [hflat hall.2, List.map_cons]
      | true =>
        obtain ⟨sub, rfl⟩ : ∃ sub, v = .yaml sub := by
          cases v with
          | yaml sub => exact ⟨sub, rfl⟩
          | _ => cases hleaf
        obtain ⟨subes, subls, hsubtext, hsubls, -⟩ := @ih.1 sub (level + 2) rfl
        refine ⟨(key, []) :: (subes ++ es), leafLine level key [] :: (subls ++ [] :: ls), ?_,
          .leaf hkeys.1 (List.forall_mem_nil _) (hsubls.append (.blank hls)), fun hall => ?_⟩
        · simp [dumpTable, dump, leafLine, hleaf, cStr_key hkeys.1, htext, hsubtext]
        · have hmap := hall _ List.mem_cons_self
          rw [hleaf] at hmap
          cases hmap

/-! ### Saved trees -/

theorem mem_putAll {es : Table} {q : List Char × Value} (hq : q ∈ putAll es t) : q ∈ es ∨ q ∈ t := by
  induction es generalizing t with
  | nil => exact .inr hq
  | cons p es ih =>
    obtain hq | hq := ih hq
    · exact .inl (List.mem_cons_of_mem p hq)
    · obtain rfl | hq := mem_addValue hq
      · exact .inl List.mem_cons_self
      · exact .inr hq

/-- What is read again as it was saved: no table, and no `'\0'` that cuts a string. -/
structure Storable (v : Value) : Prop where
  isYaml : v.isYaml = false
  nul : ∀ s, v = .string s → Char.ofNat 0 ∉ s

/-- **What a saved tree is read as**: the texts of its lines, in one table. -/
theorem Valid.parse_save (h : Valid (.yaml table)) : ∃ es : List (List Char × List Char),
    (∀ t', parse (save table) = .ok (.yaml t') ↔
      ∃ vs : Table, t' = putAll vs [] ∧ es.map (fun e => (e.1, buildValue e.2)) = vs.map fun p => (p.1, .ok p.2)) ∧
    ((∀ p ∈ table, p.2.isYaml = false) → es = table.map fun p => (p.1, dump 2 p.2)) := by
  obtain ⟨es, ls, htext, hls, hflat⟩ := h.dumpTable_lines 0
  refine ⟨es, fun t' => ?_, hflat⟩
  rw [parse_eq_ok_iff, save, htext, TextOf.ended.lines hls.newline_not_mem, ← hls.parses_iff]
  constructor
  · rintro ⟨_, ⟨⟩, hparses⟩
    exact hparses
  · intro hparses
    exact ⟨t', rfl, hparses⟩

/-- A tree that is read again as it was has nothing else in it. -/
theorem Valid.storable_of_parse (h : Valid (.yaml table)) (hparse : parse (save table) = .ok (.yaml table)) :
    ∀ p ∈ table, Storable p.2 := by
  obtain ⟨es, hiff, hflat⟩ := h.parse_save
  obtain ⟨vs, htable, hvs⟩ := (hiff table).mp hparse
  have hleaf : ∀ p ∈ table, p.2.isYaml = false := by
    intro p hp
    rw [htable] at hp
    have hread : (p.1, Except.ok p.2) ∈ es.map fun e => (e.1, buildValue e.2) := by
      rw [hvs]
      exact List.mem_map_of_mem ((mem_putAll hp).resolve_right List.not_mem_nil)
    obtain ⟨e, -, he⟩ := List.mem_map.mp hread
    exact isYaml_of_buildValue (Prod.ext_iff.mp he).2
  rw [hflat hleaf, List.map_map] at hvs
  -- the keys are those of the table, so that nothing is put in another place
  have hsorted : Sorted vs := by
    have hkeys := congrArg (List.map Prod.fst) hvs
    rw [List.map_map, List.map_map] at hkeys
    cases h with
    | yaml hsorted =>
      rw [Sorted, ← List.pairwise_map] at hsorted ⊢
      exact hkeys ▸ hsorted
  obtain rfl : table = vs := htable.trans (putAll_eq hsorted (.refl vs))
  intro p hp
  refine ⟨hleaf p hp, fun s hs => cStr_eq_self_iff.mp (eq_of_buildValue_string ?_)⟩
  have hread := (Prod.ext_iff.mp (List.map_inj_left.mp hvs p hp)).2
  dsimp only [Function.comp] at hread
  rwa [hs] at hread

/-- A table of leaves. -/
def infoTable : Table :=
  [("CTRL_THREAD".toList, .vector [0, 1, 2]), ("NAME".toList, .string "XXX".toList),
    ("NUM_THREAD".toList, .number 4), ("SAMPLE".toList, .bool false)]

theorem valid_infoTable : Valid (.yaml infoTable) := by
  refine .yaml (by decide) (by decide) ?_
  simp only [infoTable, List.forall_mem_cons]
  exact ⟨@Valid.vector [0, 1, 2] (by decide), .string ⟨by decide, by decide, by decide, by decide⟩,
    .number (n := 4) (by decide), .bool false, nofun⟩

/-- A table in a table. -/
def loggerTable : Table := [("LOGGER".toList, .yaml [("SAMPLE".toList, .bool false)])]

end Yaml

end Schnauzer
