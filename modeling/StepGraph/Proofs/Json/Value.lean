import Mathlib.Data.List.TakeWhile
import StepGraph.Proofs.Json.Number
import StepGraph.Proofs.Json.Text
import StepGraph.Proofs.Value.Equal
import StepGraph.Proofs.Value.Writable

/-!
# Values in JSON

A value is written if its numbers can be, and read as it was if besides its keys are texts
(`Storable`) and no mapping in it has a key twice (`read_write`). The induction is on the value,
for any level at which it stands and any text that goes on with no part of a number. Each item and
each collection takes a step, so the steps are counted in characters.
-/

set_option autoImplicit false

namespace StepGraph.Json

/-! ## Values that can be read again -/

/-- All keys are texts, and all numbers can be written. -/
inductive Storable : Value → Prop
  | scalar {s : Scalar} (h : s.isWritable = true) : Storable (.scalar s)
  | list {items : List Value} (h : ∀ v ∈ items, Storable v) : Storable (.list items)
  | map {entries : Entries} (htext : ∀ e ∈ entries, ∃ key, e.1 = .str key)
      (h : ∀ e ∈ entries, Storable e.2) : Storable (.map entries)

@[simp] theorem storable_scalar {s : Scalar} : Storable (.scalar s) ↔ s.isWritable = true :=
  ⟨fun h => (by cases h; assumption), .scalar⟩

@[simp] theorem storable_list {items : List Value} :
    Storable (.list items) ↔ ∀ v ∈ items, Storable v :=
  ⟨fun h => (by cases h; assumption), .list⟩

@[simp] theorem storable_record {fields : List (String × Value)} :
    Storable (.record fields) ↔ ∀ field ∈ fields, Storable field.2 := by
  constructor
  · intro h
    cases h with
    | map _ h => exact fun field hf => h _ (List.mem_map_of_mem hf)
  · intro h
    refine .map (fun e he => ?_) fun e he => ?_
    · obtain ⟨field, -, rfl⟩ := List.mem_map.1 he
      exact ⟨field.1, rfl⟩
    · obtain ⟨field, hf, rfl⟩ := List.mem_map.1 he
      exact h field hf

@[simp] theorem isWritable_str (s : String) : (Scalar.str s).isWritable = true := rfl

theorem Storable.isWritable {v : Value} (h : Storable v) : v.isWritable = true := by
  induction v using Value.induction with
  | scalar s => exact storable_scalar.1 h
  | list items ih =>
    exact Value.isWritable_list_iff.2 fun v hv => ih v hv (storable_list.1 h v hv)
  | map entries ih =>
    cases h with
    | map htext hentries =>
      refine Value.isWritable_map_iff.2 fun e he => ⟨?_, ih e he (hentries e he)⟩
      obtain ⟨key, hkey⟩ := htext e he
      rw [hkey]
      rfl

/-! ## Blanks -/

section
variable {c : Char} {cs rest : List Char} {level : Nat}

theorem skipSpace_newLine (level : Nat) (cs : List Char) :
    skipSpace ((newLine level).toList ++ cs) = skipSpace cs := by
  refine List.dropWhile_append_of_pos fun c hc => ?_
  rw [newLine, String.toList_ofList] at hc
  rcases List.mem_cons.1 hc with rfl | hc
  · rfl
  · rw [List.eq_of_mem_replicate hc]
    rfl

theorem skipSpace_cons (hc : isSpace c = false) (cs : List Char) : skipSpace (c :: cs) = c :: cs :=
  List.dropWhile_cons_of_neg (by rw [hc]; decide)

theorem endsNumber_newLine (level : Nat) (cs : List Char) :
    EndsNumber ((newLine level).toList ++ cs) := by
  rintro c hc
  rw [newLine, String.toList_ofList] at hc
  cases hc
  decide

theorem endsNumber_comma (cs : List Char) : EndsNumber (',' :: cs) := by
  rintro c ⟨⟩
  decide

end

theorem length_newLine_pos (level : Nat) : 0 < (newLine level).toList.length := by
  rw [newLine, String.toList_ofList]
  exact Nat.succ_pos _

/-! ## Scalars -/

theorem writeString_toList (s : String) (rest : List Char) :
    (writeString s).toList ++ rest = '"' :: (s.toList.flatMap writeChar ++ '"' :: rest) := by
  rw [writeString, String.toList_ofList, List.append_assoc]
  rfl

/-- A scalar that is no text is written as a word. -/
theorem isWord_word {s : Scalar} (htext : s.isString = false) (hs : s.isWritable = true) :
    IsWord (word s).toList (.scalar s) := by
  cases s with
  | null => exact @isWord_constant "null" _ (by simp [constants])
  | bool b =>
    cases b with
    | false => exact @isWord_constant "false" _ (by simp [constants])
    | true => exact @isWord_constant "true" _ (by simp [constants])
  | num n =>
    cases n with
    | int n => exact isWord_int (of_decide_eq_true hs)
    | float d => exact isWord_float d
  | str s => cases htext

/-! ## Lines -/

/-- Lines between commas. -/
def lines (level : Nat) (texts : List String) : List Char :=
  (("," ++ newLine level).intercalate texts).toList

theorem lines_singleton (level : Nat) (text : String) : lines level [text] = text.toList := by
  rw [lines, String.intercalate_singleton]

theorem lines_cons_cons (level : Nat) (text next : String) (texts : List String) :
    lines level (text :: next :: texts)
      = text.toList ++ ',' :: ((newLine level).toList ++ lines level (next :: texts)) := by
  rw [lines, String.intercalate_cons_cons, String.toList_append, String.toList_append,
    String.toList_append, List.append_assoc, List.append_assoc]
  rfl

theorem exists_lines_cons (level : Nat) (text : String) (texts : List String) :
    ∃ tail, lines level (text :: texts) = text.toList ++ tail := by
  cases texts with
  | nil => exact ⟨[], by rw [lines_singleton, List.append_nil]⟩
  | cons next texts => exact ⟨_, lines_cons_cons level text next texts⟩

theorem bracketed_toList (opening closing : String) (level : Nat) {texts : List String}
    (hne : texts ≠ []) : (bracketed opening closing level texts).toList = opening.toList ++
      ((newLine (level + 1)).toList ++ (lines (level + 1) texts ++
        ((newLine level).toList ++ closing.toList))) := by
  obtain ⟨text, texts, rfl⟩ := List.exists_cons_of_ne_nil hne
  simp only [bracketed, lines, String.toList_append, List.append_assoc]

theorem exists_bracketed (opening closing : String) (level : Nat) (texts : List String) :
    ∃ tail, (bracketed opening closing level texts).toList = opening.toList ++ tail := by
  cases texts with
  | nil => exact ⟨_, String.toList_append⟩
  | cons text texts =>
    exact ⟨_, bracketed_toList opening closing level (List.cons_ne_nil text texts)⟩

theorem length_lines_le (opening closing : String) (level : Nat) {texts : List String}
    (hne : texts ≠ []) : (lines (level + 1) texts).length + 2
      ≤ (bracketed opening closing level texts).toList.length := by
  have hfirst := length_newLine_pos (level + 1)
  have hlast := length_newLine_pos level
  rw [bracketed_toList opening closing level hne]
  simp only [List.length_append]
  omega

/-! ## Beginnings -/

/-- A text that starts neither with a blank nor with the end of a collection. -/
def StartsValue (cs : List Char) : Prop :=
  ∃ c tail, cs = c :: tail ∧ isSpace c = false ∧ c ≠ ']' ∧ c ≠ '\x7d'

namespace StartsValue

variable {cs : List Char}

theorem append (h : StartsValue cs) (rest : List Char) : StartsValue (cs ++ rest) := by
  obtain ⟨c, tail, rfl, hc⟩ := h
  exact ⟨c, tail ++ rest, rfl, hc⟩

theorem skipSpace_eq (h : StartsValue cs) : skipSpace cs = cs := by
  obtain ⟨c, tail, rfl, hc, -⟩ := h
  exact skipSpace_cons hc tail

theorem length_pos (h : StartsValue cs) : 0 < cs.length := by
  obtain ⟨c, tail, rfl, -⟩ := h
  exact Nat.succ_pos _

end StartsValue

theorem StartsWord.startsValue {cs : List Char} (h : StartsWord cs) : StartsValue cs := by
  obtain ⟨c, tail, rfl, hc, hne⟩ := h
  exact ⟨c, tail, rfl, hc, fun h => hne (by simp [h]), fun h => hne (by simp [h])⟩

/-! ## Values -/

/-- The text of a value at any level starts like a value, and is read as the value. -/
structure Reads (v : Value) : Prop where
  starts : ∀ level, StartsValue (writeAt level v).toList
  reads : ∀ {level steps : Nat} {rest : List Char}, EndsNumber rest →
    2 * (writeAt level v).toList.length ≤ steps →
    value steps ((writeAt level v).toList ++ rest) = .ok (v, rest)

/-- What a value is read as after the first step. -/
theorem Reads.of_step {v : Value} (starts : ∀ level, StartsValue (writeAt level v).toList)
    (reads : ∀ {level steps : Nat} {rest : List Char}, EndsNumber rest →
      2 * (writeAt level v).toList.length ≤ steps + 1 →
      value (steps + 1) ((writeAt level v).toList ++ rest) = .ok (v, rest)) : Reads v := by
  refine ⟨starts, fun {level steps rest} hrest hsteps => ?_⟩
  have hpos := (starts level).length_pos
  obtain ⟨steps, rfl⟩ : ∃ n, steps = n + 1 := ⟨steps - 1, by omega⟩
  exact reads hrest hsteps

theorem value_word {steps : Nat} {cs : List Char} (h : StartsWord cs) :
    value (steps + 1) cs = plain cs := by
  obtain ⟨c, tail, rfl, -, hc⟩ := h
  simp only [List.mem_cons, List.not_mem_nil, or_false, not_or] at hc
  rw [value]
  · exact nofun
  · exact nofun
  · rintro rest ⟨⟩
    exact hc.1 rfl
  · rintro _ rest - ⟨⟩
    exact hc.2.1 rfl
  · rintro _ rest - ⟨⟩
    exact hc.2.2.2.1 rfl

theorem reads_str (s : String) : Reads (.str s) := by
  refine .of_step (fun level => ?_) fun {level steps rest} _ _ => ?_
  · refine ⟨'"', s.toList.flatMap writeChar ++ ['"'], ?_, rfl, by decide, by decide⟩
    exact (List.append_nil _).symm.trans (writeString_toList s [])
  · have htext : (writeAt level (.str s)).toList ++ rest
        = '"' :: (s.toList.flatMap writeChar ++ '"' :: rest) := writeString_toList s rest
    rw [htext, value]
    · exact Attempt.bind_eq_ok.2 ⟨_, string_writeString s rest, rfl⟩
    · exact nofun

theorem reads_word {s : Scalar} (htext : s.isString = false) (hs : s.isWritable = true) :
    Reads (.scalar s) := by
  have hwrite : ∀ level, writeAt level (.scalar s) = word s := by
    intro level
    cases s with
    | str text => cases htext
    | _ => rfl
  have hword := isWord_word htext hs
  refine .of_step (fun level => ?_) fun {level steps rest} hrest _ => ?_
  · have hstarts := (hword [] (by rintro c ⟨⟩)).1
    rw [List.append_nil] at hstarts
    rw [hwrite]
    exact hstarts.startsValue
  · obtain ⟨hstarts, hplain⟩ := hword rest hrest
    rw [hwrite, value_word hstarts, hplain]

/-! ## Lists -/

section
variable {level inner steps : Nat} {rest : List Char}

theorem startsValue_items {vs : List Value} (hvs : ∀ v ∈ vs, Reads v) (hne : vs ≠ []) :
    StartsValue (lines inner (writeItems inner vs)) := by
  obtain ⟨v, vs, rfl⟩ := List.exists_cons_of_ne_nil hne
  obtain ⟨tail, htail⟩ := exists_lines_cons inner (writeAt inner v) (writeItems inner vs)
  rw [writeItems, htail]
  exact ((List.forall_mem_cons.1 hvs).1.starts inner).append tail

theorem items_lines {vs : List Value} (hvs : ∀ v ∈ vs, Reads v) (hne : vs ≠ [])
    (hsteps : 2 * (lines inner (writeItems inner vs)).length < steps) :
    items steps (lines inner (writeItems inner vs) ++ ((newLine level).toList ++ ']' :: rest))
      = .ok (vs, rest) := by
  induction vs generalizing steps with
  | nil => exact absurd rfl hne
  | cons v vs ih =>
    obtain ⟨hv, hvs⟩ := List.forall_mem_cons.1 hvs
    obtain ⟨steps, rfl⟩ : ∃ n, steps = n + 1 := ⟨steps - 1, by omega⟩
    cases vs with
    | nil =>
      rw [writeItems, writeItems, lines_singleton] at hsteps ⊢
      refine Attempt.bind_eq_ok.2 ⟨_, hv.reads (endsNumber_newLine _ _) (by omega), ?_⟩
      dsimp only
      rw [skipSpace_newLine, skipSpace_cons rfl]
      rfl
    | cons next vs =>
      rw [writeItems, writeItems, lines_cons_cons, ← writeItems] at hsteps ⊢
      rw [List.length_append, List.length_cons, List.length_append] at hsteps
      rw [List.append_assoc, List.cons_append, List.append_assoc]
      refine Attempt.bind_eq_ok.2 ⟨_, hv.reads (endsNumber_comma _) (by omega), ?_⟩
      dsimp only
      rw [skipSpace_cons rfl]
      have hstarts := @startsValue_items inner _ hvs (List.cons_ne_nil _ _)
      refine Attempt.bind_eq_ok.2 ⟨(next :: vs, rest), ?_, rfl⟩
      rw [skipSpace_newLine, (hstarts.append _).skipSpace_eq]
      exact ih hvs (List.cons_ne_nil _ _) (by omega)

/-- A list with something in it. -/
theorem value_items {found : List Value} {cs left : List Char} (hcs : StartsValue cs)
    (h : items steps cs = .ok (found, left)) :
    value (steps + 1) ('[' :: ((newLine inner).toList ++ cs)) = .ok (.list found, left) := by
  obtain ⟨c, tail, rfl, hc, hne, -⟩ := hcs
  rw [value, skipSpace_newLine, skipSpace_cons hc]
  split
  · rename_i heq
    cases heq
    exact absurd rfl hne
  · exact Attempt.bind_eq_ok.2 ⟨_, h, rfl⟩

theorem reads_list {items : List Value} (hitems : ∀ v ∈ items, Reads v) : Reads (.list items) := by
  refine .of_step (fun level => ?_) fun {level steps rest} _ hsteps => ?_
  · obtain ⟨tail, htail⟩ := exists_bracketed "[" "]" level (writeItems (level + 1) items)
    exact ⟨'[', tail, htail, rfl, by decide, by decide⟩
  · rw [writeAt] at hsteps ⊢
    cases items with
    | nil =>
      have htext : (bracketed "[" "]" level (writeItems (level + 1) [])).toList = ['[', ']'] := by
        rw [writeItems, bracketed, String.toList_append]
        rfl
      rw [htext]
      rfl
    | cons v vs =>
      have htexts : writeItems (level + 1) (v :: vs) ≠ [] := List.cons_ne_nil _ _
      have hlength := length_lines_le "[" "]" level htexts
      have hne : v :: vs ≠ [] := List.cons_ne_nil v vs
      rw [bracketed_toList "[" "]" level htexts]
      simp only [List.append_assoc]
      exact value_items ((startsValue_items hitems hne).append _)
        (items_lines hitems hne (by omega))

/-! ## Mappings -/

/-- A member starts with the quote of its key. -/
theorem member_toList (key : String) (v : Value) (level : Nat) (rest : List Char) :
    (writeKey (.str key) ++ ": " ++ writeAt level v).toList ++ rest =
      '"' :: (key.toList.flatMap writeChar
        ++ '"' :: ':' :: ' ' :: ((writeAt level v).toList ++ rest)) := by
  rw [String.toList_append, String.toList_append, List.append_assoc, List.append_assoc]
  exact writeString_toList key _

theorem length_le_member (k : Scalar) (v : Value) (level : Nat) : (writeAt level v).toList.length
    ≤ (writeKey k ++ ": " ++ writeAt level v).toList.length := by
  rw [String.toList_append, List.length_append]
  exact Nat.le_add_left _ _

theorem startsValue_members {entries : Entries} (htext : ∀ e ∈ entries, ∃ key, e.1 = .str key)
    (hne : entries ≠ []) : StartsValue (lines inner (writeEntries inner entries)) := by
  obtain ⟨⟨k, v⟩, entries, rfl⟩ := List.exists_cons_of_ne_nil hne
  obtain ⟨⟨key, rfl⟩, -⟩ := List.forall_mem_cons.1 htext
  obtain ⟨tail, htail⟩ := exists_lines_cons inner (writeKey (.str key) ++ ": " ++ writeAt inner v)
    (writeEntries inner entries)
  rw [writeEntries, htail, ← List.append_nil (writeKey _ ++ _ ++ _).toList, member_toList]
  exact ⟨_, _, rfl, rfl, by decide, by decide⟩

theorem members_last {key : String} {v : Value} (hv : Reads v) {cs : List Char}
    (hcs : EndsNumber cs) (hclosed : skipSpace cs = '\x7d' :: rest)
    (hsteps : 2 * (writeAt inner v).toList.length ≤ steps) :
    members (steps + 1) ((writeKey (.str key) ++ ": " ++ writeAt inner v).toList ++ cs)
      = .ok ([(.str key, v)], rest) := by
  rw [member_toList, members]
  refine Attempt.bind_eq_ok.2 ⟨_, string_writeString key _, ?_⟩
  dsimp only
  rw [skipSpace_cons rfl]
  refine Attempt.bind_eq_ok.2 ⟨(v, cs), ?_, ?_⟩
  · exact (congrArg (value steps) (((hv.starts inner).append cs).skipSpace_eq)).trans
      (hv.reads hcs hsteps)
  · dsimp only
    rw [hclosed]
    rfl

theorem members_next {key : String} {v : Value} (hv : Reads v) {after left : List Char}
    {others : List (Scalar × Value)}
    (hothers : members steps (skipSpace after) = .ok (others, left))
    (hsteps : 2 * (writeAt inner v).toList.length ≤ steps) :
    members (steps + 1) ((writeKey (.str key) ++ ": " ++ writeAt inner v).toList ++ ',' :: after)
      = .ok ((.str key, v) :: others, left) := by
  rw [member_toList, members]
  refine Attempt.bind_eq_ok.2 ⟨_, string_writeString key _, ?_⟩
  dsimp only
  rw [skipSpace_cons rfl]
  refine Attempt.bind_eq_ok.2 ⟨(v, ',' :: after), ?_, ?_⟩
  · exact (congrArg (value steps) (((hv.starts inner).append _).skipSpace_eq)).trans
      (hv.reads (endsNumber_comma after) hsteps)
  · dsimp only
    rw [skipSpace_cons rfl]
    exact Attempt.bind_eq_ok.2 ⟨_, hothers, rfl⟩

theorem members_lines {entries : Entries} (htext : ∀ e ∈ entries, ∃ key, e.1 = .str key)
    (hentries : ∀ e ∈ entries, Reads e.2) (hne : entries ≠ [])
    (hsteps : 2 * (lines inner (writeEntries inner entries)).length < steps) :
    members steps (lines inner (writeEntries inner entries)
      ++ ((newLine level).toList ++ '\x7d' :: rest)) = .ok (entries, rest) := by
  induction entries generalizing steps with
  | nil => exact absurd rfl hne
  | cons entry entries ih =>
    obtain ⟨k, v⟩ := entry
    obtain ⟨⟨key, rfl⟩, hkeys⟩ := List.forall_mem_cons.1 htext
    obtain ⟨hv : Reads v, hentries⟩ := List.forall_mem_cons.1 hentries
    obtain ⟨steps, rfl⟩ : ∃ n, steps = n + 1 := ⟨steps - 1, by omega⟩
    cases entries with
    | nil =>
      rw [writeEntries, writeEntries, lines_singleton] at hsteps ⊢
      refine members_last hv (endsNumber_newLine _ _) ?_ ?_
      · rw [skipSpace_newLine, skipSpace_cons rfl]
      · have hle := length_le_member (.str key) v inner
        omega
    | cons next entries =>
      obtain ⟨k', v'⟩ := next
      rw [writeEntries, writeEntries, lines_cons_cons, ← writeEntries] at hsteps ⊢
      rw [List.length_append, List.length_cons, List.length_append] at hsteps
      rw [List.append_assoc, List.cons_append, List.append_assoc]
      have hstarts := @startsValue_members inner _ hkeys (List.cons_ne_nil _ _)
      refine members_next hv ?_ ?_
      · rw [skipSpace_newLine, (hstarts.append _).skipSpace_eq]
        exact ih hkeys hentries (List.cons_ne_nil _ _) (by omega)
      · have hle := length_le_member (.str key) v inner
        omega

/-- A mapping with something in it. -/
theorem value_members {found : Entries} (hkeys : found.Distinct) {cs left : List Char}
    (hcs : StartsValue cs) (h : members steps cs = .ok (found, left)) :
    value (steps + 1) ('\x7b' :: ((newLine inner).toList ++ cs)) = .ok (.map found, left) := by
  obtain ⟨c, tail, rfl, hc, -, hne⟩ := hcs
  rw [value, skipSpace_newLine, skipSpace_cons hc]
  split
  · rename_i heq
    cases heq
    exact absurd rfl hne
  · refine Attempt.bind_eq_ok.2 ⟨_, h, ?_⟩
    dsimp only
    rw [Entries.ofPairs_of_distinct hkeys]
    rfl

theorem reads_map {entries : Entries} (hkeys : entries.Distinct)
    (htext : ∀ e ∈ entries, ∃ key, e.1 = .str key) (hentries : ∀ e ∈ entries, Reads e.2) :
    Reads (.map entries) := by
  refine .of_step (fun level => ?_) fun {level steps rest} _ hsteps => ?_
  · obtain ⟨tail, htail⟩ :=
      exists_bracketed "\x7b" "\x7d" level (writeEntries (level + 1) entries)
    exact ⟨'\x7b', tail, htail, rfl, by decide, by decide⟩
  · rw [writeAt] at hsteps ⊢
    cases entries with
    | nil =>
      have hempty : (bracketed "\x7b" "\x7d" level (writeEntries (level + 1) [])).toList
          = ['\x7b', '\x7d'] := by
        rw [writeEntries, bracketed, String.toList_append]
        rfl
      rw [hempty]
      rfl
    | cons entry entries =>
      have htexts : writeEntries (level + 1) (entry :: entries) ≠ [] := List.cons_ne_nil _ _
      have hlength := length_lines_le "\x7b" "\x7d" level htexts
      have hne : entry :: entries ≠ [] := List.cons_ne_nil entry entries
      rw [bracketed_toList "\x7b" "\x7d" level htexts]
      simp only [List.append_assoc]
      exact value_members hkeys ((startsValue_members htext hne).append _)
        (members_lines htext hentries hne (by omega))

end

/-! ## Whole texts -/

theorem reads_of_storable {v : Value} (h : Storable v) (hk : v.DistinctKeys) : Reads v := by
  induction v using Value.induction with
  | scalar s =>
    have hs := storable_scalar.1 h
    by_cases htext : s.isString = true
    · cases s with
      | str s => exact reads_str s
      | _ => cases htext
    · exact reads_word (Bool.not_eq_true _ ▸ htext) hs
  | list items ih =>
    have hitems := storable_list.1 h
    have hkeys := Value.distinctKeys_list.1 hk
    exact reads_list fun v hv => ih v hv (hitems v hv) (hkeys v hv)
  | map entries ih =>
    obtain ⟨hkeys, hinside⟩ := Value.distinctKeys_map.1 hk
    cases h with
    | map htext hentries =>
      exact reads_map hkeys htext fun e he => ih e he (hentries e he) (hinside e he)

/-- No value starts with a byte order mark. -/
theorem value_byteOrderMark {steps : Nat} {cs left : List Char} {v : Value} :
    value steps ('\uFEFF' :: cs) ≠ .ok (v, left) := by
  cases steps with
  | zero => exact nofun
  | succ steps =>
    rw [value]
    all_goals exact nofun

/-- A text that starts with a value, and has blanks after it. -/
theorem read_eq_ok {v : Value} {cs rest : List Char} (hstarts : StartsValue cs)
    (hvalue : value (2 * cs.length + 2) cs = .ok (v, rest)) (hrest : skipSpace rest = []) :
    read cs = .ok v := by
  have hmark : cs.head? ≠ some '\uFEFF' := by
    intro hhead
    obtain ⟨tail, rfl⟩ := List.head?_eq_some_iff.1 hhead
    exact value_byteOrderMark hvalue
  refine Attempt.widen_eq_ok.2 ?_
  rw [wholeText, if_neg hmark, hstarts.skipSpace_eq]
  refine Attempt.bind_eq_ok.2 ⟨_, hvalue, ?_⟩
  dsimp only
  rw [hrest]
  rfl

theorem write_of_isWritable {ε : Type} {v : Value} (h : v.isWritable = true) :
    (write v : Attempt ε String) = .ok (writeAt 0 v) :=
  Attempt.bind_eq_ok.2 ⟨(), Value.assertWritable_eq_ok.2 h, rfl⟩

/-- What is written is read again, whether or not line breaks come after it. -/
theorem read_write {v : Value} (h : Storable v) (hk : v.DistinctKeys) {rest : List Char}
    (hrest : ∀ c ∈ rest, c = '\n') : read ((writeAt 0 v).toList ++ rest) = .ok v := by
  obtain ⟨hstarts, hreads⟩ := reads_of_storable h hk
  have hends : EndsNumber rest := by
    intro c hc
    rw [hrest c (List.mem_of_mem_head? hc)]
    decide
  have hspace : skipSpace rest = [] := by
    refine List.dropWhile_eq_nil_iff.2 fun c hc => ?_
    rw [hrest c hc]
    rfl
  refine read_eq_ok ((hstarts 0).append rest) (hreads hends ?_) hspace
  rw [List.length_append]
  omega

end StepGraph.Json
