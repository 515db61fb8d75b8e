import Mathlib.Algebra.Order.Group.MinMax
import Satisfiability.Proofs.Linear.NormalForm
import Satisfiability.Proofs.Linear.Program

/-!
# The program of some rows

Each constraint added to a program says of the columns what it was made from
(`addConstraint_ensures`), so that the feasible assignments of the program of some rows are those
whose differences of columns satisfy the rows with a margin in each strict one (`Encodes`). From a
feasible assignment with a positive margin the rows hold (`Encodes.holds`), and where they hold
there is one (`Encodes.exists_feasible`).
-/

namespace Satisfiability.Linear

open Scalar Step

/-- The value of a sum over some columns. A column that is not there counts as zero. -/
def columnSum (terms : List (ℕ × ℚ)) (x : List ℚ) : ℚ :=
  sum (terms.map fun term => term.2 * x.getD term.1 0)

theorem columnSum_cons (term : ℕ × ℚ) (terms : List (ℕ × ℚ)) (x : List ℚ) :
    columnSum (term :: terms) x = term.2 * x.getD term.1 0 + columnSum terms x := sum_cons_rat _ _

theorem columnSum_append (terms others : List (ℕ × ℚ)) (x : List ℚ) :
    columnSum (terms ++ others) x = columnSum terms x + columnSum others x := by
  rw [columnSum, List.map_append, sum_append_rat, columnSum, columnSum]

namespace Program

variable {program p q : Program ℚ} {x : List ℚ} {terms : List (ℕ × ℚ)} {bound : ℚ}

def Meets (program : Program ℚ) (x : List ℚ) : Prop :=
  ∀ constraint ∈ program.constraints, constraintValue constraint x ≤ constraint.bound

/-- The same program with further constraints, which say that a condition is true. -/
structure Extends (program p : Program ℚ) (condition : List ℚ → Prop) : Prop where
  wellFormed : program.WellFormed → p.WellFormed
  columns : p.columns = program.columns
  objective : p.objective = program.objective
  meets : ∀ x, p.Meets x ↔ program.Meets x ∧ condition x

theorem Extends.refl (program : Program ℚ) : program.Extends program fun _ => True :=
  ⟨id, rfl, rfl, fun _ => (and_iff_left trivial).symm⟩

theorem Extends.trans {condition condition' : List ℚ → Prop} (h : program.Extends p condition)
    (h' : p.Extends q condition') : program.Extends q fun x => condition x ∧ condition' x :=
  ⟨h'.wellFormed ∘ h.wellFormed, h'.columns.trans h.columns, h'.objective.trans h.objective,
    fun x => by rw [h'.meets, h.meets, and_assoc]⟩

theorem Extends.congr {condition condition' : List ℚ → Prop} (h : program.Extends p condition)
    (hcondition : ∀ x, condition x ↔ condition' x) : program.Extends p condition' :=
  ⟨h.wellFormed, h.columns, h.objective, fun x => by rw [h.meets, hcondition]⟩

theorem alter_add {entries : List ℚ} (h : ∀ term ∈ terms, term.1 < entries.length) (x : List ℚ) :
    (alter (· + ·) entries terms).1 = true ∧
      dot (alter (· + ·) entries terms).2 x = dot entries x + columnSum terms x := by
  induction terms generalizing entries with
  | nil => exact ⟨rfl, (add_zero _).symm⟩
  | cons term rest ih =>
    obtain ⟨hlt, hrest⟩ := List.forall_mem_cons.1 h
    have hset : ∀ other ∈ rest, other.1 < (entries.set term.1 (entries[term.1] + term.2)).length := by
      simpa only [List.length_set] using hrest
    unfold alter
    rw [List.getElem?_eq_getElem hlt]
    refine ⟨(ih hset).1, (ih hset).2.trans ?_⟩
    rw [dot_set hlt, List.getD_eq_getElem _ _ hlt, columnSum_cons]
    ring

theorem constraintValue_filter (coefficients : List ℚ) (bound : ℚ) (x : List ℚ) :
    constraintValue ⟨(coefficients.zipIdx.map Prod.swap).filter
      fun (_, coefficient) => !same coefficient zero, bound⟩ x = dot coefficients x := by
  have hall : ∀ n, sum (((coefficients.zipIdx n).map Prod.swap).map
      fun term => term.2 * x.getD term.1 0) = dot coefficients (x.drop n) := by
    induction coefficients with
    | nil => exact fun _ => rfl
    | cons first rest ih =>
      intro n
      rw [List.zipIdx_cons, List.map_cons, List.map_cons, sum_cons_rat, ih, dot_cons_left, List.tail_drop,
        List.headD_eq_head?_getD, List.head?_drop, Prod.swap_prod_mk, List.getD_eq_getElem?_getD]
  refine (sum_map_filter fun term _ hzero => ?_).trans (hall 0)
  have hzero : term.2 = 0 := by simpa using hzero
  change term.2 * x.getD term.1 zero = 0
  rw [hzero, zero_mul]

/-- A constraint is added that says what it was made from. -/
theorem addConstraint_ensures (h : ∀ term ∈ terms, term.1 < program.columns) (bound : ℚ) :
    Ensures (Program.addConstraint terms bound) program
      (fun _ p => program.Extends p fun x => columnSum terms x ≤ bound) never := by
  have hterms : ∀ term ∈ terms, term.1 < (List.replicate program.columns (0 : ℚ)).length := by
    simpa only [List.length_replicate] using h
  have hadded : Ensures (Program.addConstraint terms bound) program (fun _ p =>
      p.columns = program.columns ∧ p.objective = program.objective ∧
        ∀ x, p.Meets x ↔ program.Meets x ∧ columnSum terms x ≤ bound) never := by
    simp only [Program.addConstraint, ensures_bind, ensures_get]
    have hcomplete : (alter (· + ·) (List.replicate program.columns (zero : ℚ)) terms).1 = true :=
      (alter_add hterms []).1
    rw [hcomplete]
    refine ⟨rfl, rfl, fun x => ?_⟩
    have hvalue := (constraintValue_filter _ bound x).trans (alter_add hterms x).2
    rw [dot_replicate_zero, zero_add] at hvalue
    rw [← hvalue]
    simp only [Meets, List.forall_mem_append, List.forall_mem_singleton]
    rfl
  refine ensures_of_never (ensures_and_run hadded) ?_
  rintro ⟨⟩ p ⟨⟨hcolumns, hobjective, hmeets⟩, hrun⟩
  refine ⟨fun hwellFormed => ?_, hcolumns, hobjective, hmeets⟩
  have hnext := hwellFormed.addConstraint terms bound
  rwa [hrun] at hnext

theorem setObjective_ensures (h : program.WellFormed) {column : ℕ} (hcolumn : column < program.columns)
    (hobjective : program.objective = List.replicate program.columns 0) :
    Ensures (Program.setObjective [(column, one)]) program
      (fun _ p => p.WellFormed ∧ p.columns = program.columns ∧ (∀ x, p.Meets x ↔ program.Meets x) ∧
        ∀ x, p.objectiveValue x = x.getD column 0) never := by
  have hset : Ensures (Program.setObjective [(column, one)]) program (fun _ p =>
      p.columns = program.columns ∧ (∀ x, p.Meets x ↔ program.Meets x) ∧
        ∀ x, p.objectiveValue x = x.getD column 0) never := by
    have hlt : column < program.objective.length := by rwa [h.objective]
    have halter : alter (fun _ x => x) program.objective [(column, one)] =
        (true, program.objective.set column 1) := by
      unfold alter
      rw [List.getElem?_eq_getElem hlt]
      rfl
    simp only [Program.setObjective, ensures_bind, ensures_get, halter]
    refine ⟨rfl, fun _ => Iff.rfl, fun x => ?_⟩
    change dot (program.objective.set column 1) x = _
    rw [dot_set hlt, hobjective, dot_replicate_zero, List.getD_eq_getElem?_getD,
      List.getElem?_getD_replicate_default_eq]
    ring
  refine ensures_of_never (ensures_and_run hset) ?_
  rintro ⟨⟩ p ⟨⟨hcolumns, hmeets, hvalue⟩, hrun⟩
  refine ⟨?_, hcolumns, hmeets, hvalue⟩
  have hnext := h.setObjective [(column, one)]
  rwa [hrun] at hnext

theorem forM_addConstraint {α : Type} {items : List α} (terms : α → List (ℕ × ℚ)) (bound : α → ℚ)
    (h : ∀ item ∈ items, ∀ term ∈ terms item, term.1 < program.columns) :
    Ensures (items.forM fun item => Program.addConstraint (terms item) (bound item)) program
      (fun _ p => program.Extends p fun x => ∀ item ∈ items, columnSum (terms item) x ≤ bound item)
      never := by
  induction items generalizing program with
  | nil => exact (Extends.refl program).congr fun x => by simp
  | cons item rest ih =>
    obtain ⟨hfirst, hrest⟩ := List.forall_mem_cons.1 h
    rw [ensures_forM_cons]
    refine ensures_of_never (addConstraint_ensures hfirst (bound item)) ?_
    rintro ⟨⟩ p hp
    refine ensures_of_never (ih (by rwa [hp.columns])) ?_
    rintro ⟨⟩ q hq
    refine (hp.trans hq).congr fun x => ?_
    rw [List.forall_mem_cons]

end Program

/-! ## Rows over columns -/

variable {names : List String} {rows : List (Row ℚ)} {row : Row ℚ} {program : Program ℚ} {x : List ℚ}
  {assignment : String → ℚ}

def readOff (names : List String) (x : List ℚ) (name : String) : ℚ :=
  x.getD (2 * names.idxOf name) 0 - x.getD (2 * names.idxOf name + 1) 0

def margin (names : List String) (x : List ℚ) : ℚ := x.getD (2 * names.length) 0

theorem columnSum_flatMap {α : Type} (items : List α) (f : α → List (ℕ × ℚ)) (x : List ℚ) :
    columnSum (items.flatMap f) x = sum (items.map fun item => columnSum (f item) x) := by
  induction items with
  | nil => rfl
  | cons item rest ih => rw [List.flatMap_cons, columnSum_append, ih, List.map_cons, sum_cons_rat]

theorem sum_map_ite {α : Type} [DecidableEq α] {items : List α} (hnodup : items.Nodup) {a : α}
    (h : a ∈ items) (f : α → ℚ) : sum (items.map fun b => if a = b then f b else 0) = f a := by
  induction items with
  | nil => exact absurd h List.not_mem_nil
  | cons first rest ih =>
    obtain ⟨hfirst, hrest⟩ := List.nodup_cons.1 hnodup
    rw [List.map_cons, sum_cons_rat]
    rcases List.mem_cons.1 h with rfl | h
    · rw [if_pos rfl, sum_map_eq_zero, add_zero]
      intro b hb
      have hne : a ≠ b := fun heq => hfirst (heq ▸ hb)
      exact if_neg hne
    · have hne : a ≠ first := fun heq => hfirst (heq ▸ h)
      rw [if_neg hne, ih hrest h, zero_add]

theorem weightedSum_eq_sum {coefficients : NameMap ℚ} (h : coefficients.Ordered) (hnames : names.Nodup)
    (hsub : ∀ name ∈ coefficients.keys, name ∈ names) (assignment : String → ℚ) :
    weightedSum coefficients assignment =
      sum (names.map fun name => (coefficients.find? name).getD 0 * assignment name) := by
  have hkeys : (coefficients.toList.map Prod.fst).Nodup := h.nodup_keys
  unfold weightedSum KeyMap.find?
  unfold KeyMap.keys at hsub
  generalize coefficients.toList = terms at hkeys hsub ⊢
  induction terms with
  | nil => exact (sum_map_eq_zero fun name _ => zero_mul _).symm
  | cons term rest ih =>
    rw [List.map_cons, List.nodup_cons] at hkeys
    rw [List.map_cons, List.forall_mem_cons] at hsub
    -- the variable has no other coefficient
    have hterm : ∀ name, (KeyMap.get? name (term :: rest)).getD 0 * assignment name =
        (if term.1 = name then term.2 * assignment name else 0) +
          (KeyMap.get? name rest).getD 0 * assignment name := by
      intro name
      rw [KeyMap.get?]
      by_cases hname : term.1 = name
      · rw [if_pos hname, if_pos hname, ← hname, KeyMap.get?_eq_none_iff.2 hkeys.1]
        simp
      · rw [if_neg hname, if_neg hname, zero_add]
    rw [List.map_cons, sum_cons_rat, ih hkeys.2 hsub.2, List.map_congr_left fun name _ => hterm name,
      sum_map_add, sum_map_ite hnames hsub.1]

theorem idxOf_of_mem_zipIdx (hnames : names.Nodup) {place : String × ℕ} (h : place ∈ names.zipIdx) :
    place.2 < names.length ∧ names.idxOf place.1 = place.2 := by
  obtain ⟨hlt, hname⟩ := List.getElem?_eq_some_iff.1 (List.mem_zipIdx_iff_getElem?.1 h)
  refine ⟨hlt, ?_⟩
  rw [← hname]
  exact hnames.idxOf_getElem place.2 hlt

theorem columnSum_rowTerms (h : row.coefficients.Ordered) (hnames : names.Nodup)
    (hsub : ∀ name ∈ row.coefficients.keys, name ∈ names) (x : List ℚ) :
    columnSum (rowTerms names row) x =
      weightedSum row.coefficients (readOff names x) + if row.strict then margin names x else 0 := by
  have hmargin : columnSum (if row.strict then [(2 * names.length, Scalar.one)] else []) x =
      if row.strict then margin names x else 0 := by
    cases row.strict with
    | true => exact (columnSum_cons _ _ x).trans (by simp [margin, columnSum, sum_nil_rat])
    | false => rfl
  have hzip (f : String → ℚ) : names.map f = names.zipIdx.map fun place => f place.1 := by
    rw [← Function.comp_def f Prod.fst, ← List.map_map, List.zipIdx_map_fst]
  rw [rowTerms, columnSum_append, hmargin, columnSum_flatMap, weightedSum_eq_sum h hnames hsub, hzip]
  congr 2
  refine List.map_congr_left fun place hplace => ?_
  simp only [readOff, (idxOf_of_mem_zipIdx hnames hplace).2]
  cases row.coefficients.find? place.1 with
  | none => simp [columnSum, sum_nil_rat]
  | some coefficient =>
    simp only [columnSum_cons, Option.getD_some]
    simp only [columnSum, List.map_nil, sum_nil_rat]
    ring

theorem lt_of_mem_rowTerms {term : ℕ × ℚ} (h : term ∈ rowTerms names row) :
    term.1 < 2 * names.length + if row.strict then 1 else 0 := by
  rcases List.mem_append.1 h with h | h
  · obtain ⟨⟨name, i⟩, hplace, hterm⟩ := List.mem_flatMap.1 h
    have hlt : i < names.length := List.snd_lt_of_mem_zipIdx hplace
    dsimp only at hterm
    split at hterm
    · exact absurd hterm List.not_mem_nil
    · rcases List.mem_pair.1 hterm with rfl | rfl
      · exact Nat.lt_add_right _ (by omega)
      · exact Nat.lt_add_right _ (by omega)
  · split at h
    · rename_i hstrict
      rw [List.mem_singleton.1 h, if_pos hstrict]
      exact Nat.lt_succ_self _
    · exact absurd h List.not_mem_nil

/-- The program says of the columns that their differences satisfy the rows, the strict ones with
the margin, which is to be made as great as possible but not greater than one. -/
structure Encodes (names : List String) (rows : List (Row ℚ)) (program : Program ℚ) : Prop where
  wellFormed : program.WellFormed
  columns : program.columns = 2 * names.length + if rows.any Row.strict then 1 else 0
  meets : ∀ x, program.Meets x ↔ (∀ row ∈ rows, weightedSum row.coefficients (readOff names x) +
    (if row.strict then margin names x else 0) ≤ row.bound) ∧
    (rows.any Row.strict = true → margin names x ≤ 1)
  objective : ∀ x, program.objectiveValue x = if rows.any Row.strict then margin names x else 0

theorem lt_of_mem_of_mem_rowTerms (hrow : row ∈ rows) {term : ℕ × ℚ} (h : term ∈ rowTerms names row) :
    term.1 < 2 * names.length + if rows.any Row.strict then 1 else 0 := by
  have hlt := lt_of_mem_rowTerms h
  cases hstrict : row.strict with
  | true =>
    have hany : rows.any Row.strict = true := List.any_eq_true.2 ⟨row, hrow, hstrict⟩
    rw [hany]
    rwa [hstrict] at hlt
  | false =>
    rw [hstrict, if_neg Bool.false_ne_true] at hlt
    exact Nat.lt_add_right _ hlt

section build

variable (hnames : names.Nodup) (hordered : ∀ row ∈ rows, row.coefficients.Ordered)
  (hsub : ∀ row ∈ rows, ∀ name ∈ row.coefficients.keys, name ∈ names)

include hnames hordered hsub

theorem buildProgram_ensures :
    Ensures (buildProgram names rows)
      (Program.ofColumns (2 * names.length + if rows.any Row.strict then 1 else 0))
      (fun _ program => Encodes names rows program) never := by
  set columns := 2 * names.length + if rows.any Row.strict then 1 else 0 with hcolumns
  have hempty : ∀ x, (Program.ofColumns (α := ℚ) columns).Meets x := fun x => List.forall_mem_nil _
  have hterms : ∀ x, (∀ row ∈ rows, columnSum (rowTerms names row) x ≤ row.bound) ↔
      ∀ row ∈ rows, weightedSum row.coefficients (readOff names x) +
        (if row.strict then margin names x else 0) ≤ row.bound := fun x =>
    forall₂_congr fun row hrow => by
      rw [columnSum_rowTerms (hordered row hrow) hnames (hsub row hrow)]
  rw [buildProgram, ensures_bind]
  refine ensures_of_never (Program.forM_addConstraint (rowTerms names) Row.bound
    fun row hrow term => lt_of_mem_of_mem_rowTerms hrow) ?_
  rintro ⟨⟩ p hp
  have hwellFormed := hp.wellFormed (Program.Built.ofColumns columns).wellFormed
  cases hany : rows.any Row.strict with
  | false =>
    rw [if_neg Bool.false_ne_true, ensures_pure]
    refine ⟨hwellFormed, hp.columns, fun x => ?_, fun x => ?_⟩
    · rw [hp.meets, hterms, and_iff_right (hempty x), hany]
      exact (and_iff_left nofun).symm
    · rw [Program.objectiveValue, hp.objective, hany]
      exact dot_replicate_zero columns x
  | true =>
    have hmargin : 2 * names.length < p.columns := by
      rw [hp.columns]
      change _ < columns
      rw [hcolumns, hany, if_pos rfl]
      exact Nat.lt_succ_self _
    have hone : ∀ x, columnSum [(2 * names.length, Scalar.one)] x = margin names x := fun x =>
      (columnSum_cons _ _ x).trans (by simp [margin, columnSum, sum_nil_rat])
    rw [if_pos rfl, ensures_bind]
    refine ensures_of_never (Program.addConstraint_ensures
      (List.forall_mem_singleton.2 hmargin) Scalar.one) ?_
    rintro ⟨⟩ q hq
    have hobjective : q.objective = List.replicate q.columns 0 := by
      rw [hq.objective, hp.objective, hq.columns, hp.columns]
      rfl
    refine ensures_of_never (Program.setObjective_ensures (hq.wellFormed hwellFormed)
      (by rwa [hq.columns]) hobjective) ?_
    rintro ⟨⟩ program ⟨hwell, hcount, hmeets, hvalue⟩
    refine ⟨hwell, hcount.trans (hq.columns.trans hp.columns), fun x => ?_, fun x => ?_⟩
    · rw [hmeets, hq.meets, hp.meets, hterms, and_iff_right (hempty x), hone, hany]
      exact and_congr_right fun _ => ⟨fun h _ => h, fun h => h rfl⟩
    · rw [hvalue, hany]
      rfl

theorem exists_programOf : ∃ program, programOf names rows = .ok program ∧ Encodes names rows program := by
  obtain ⟨⟨⟩, program, hrun, hprogram⟩ := run_of_ensures (buildProgram_ensures hnames hordered hsub)
  refine ⟨program, ?_, hprogram⟩
  dsimp only [programOf]
  rw [hrun]

end build

/-! ## Assignments to columns and to variables -/

theorem Encodes.objective_le_one (h : Encodes names rows program) (hx : program.Feasible x) :
    program.objectiveValue x ≤ 1 := by
  rw [h.objective]
  split
  · rename_i hany
    exact ((h.meets x).1 hx.meets).2 hany
  · exact zero_le_one

/-- From a feasible assignment with a margin the rows hold. -/
theorem Encodes.holds (h : Encodes names rows program) (hx : program.Feasible x)
    (hmargin : rows.any Row.strict = true → 0 < margin names x) :
    ∀ row ∈ rows, row.Holds (readOff names x) := by
  intro row hrow
  have hmeets := ((h.meets x).1 hx.meets).1 row hrow
  unfold Row.Holds
  cases hstrict : row.strict with
  | true =>
    have hpositive := hmargin (List.any_eq_true.2 ⟨row, hrow, hstrict⟩)
    rw [hstrict, if_pos rfl] at hmeets
    rw [if_pos rfl]
    linarith
  | false =>
    rw [hstrict, if_neg Bool.false_ne_true, add_zero] at hmeets
    rwa [if_neg Bool.false_ne_true]

theorem exists_margin (h : ∀ row ∈ rows, row.Holds assignment) :
    ∃ amount : ℚ, 0 < amount ∧ amount ≤ 1 ∧ ∀ row ∈ rows,
      weightedSum row.coefficients assignment + (if row.strict then amount else 0) ≤ row.bound := by
  induction rows with
  | nil => exact ⟨1, one_pos, le_refl 1, List.forall_mem_nil _⟩
  | cons row rest ih =>
    obtain ⟨hrow, hrest⟩ := List.forall_mem_cons.1 h
    obtain ⟨amount, hpositive, hone, hall⟩ := ih hrest
    unfold Row.Holds at hrow
    cases hstrict : row.strict with
    | false =>
      refine ⟨amount, hpositive, hone, List.forall_mem_cons.2 ⟨?_, hall⟩⟩
      rw [hstrict, if_neg Bool.false_ne_true] at hrow ⊢
      rwa [add_zero]
    | true =>
      rw [hstrict, if_pos rfl] at hrow
      refine ⟨min amount (row.bound - weightedSum row.coefficients assignment),
        lt_min hpositive (sub_pos.2 hrow), (min_le_left _ _).trans hone,
        List.forall_mem_cons.2 ⟨?_, fun other hother => ?_⟩⟩
      · rw [hstrict, if_pos rfl]
        linarith [min_le_right amount (row.bound - weightedSum row.coefficients assignment)]
      · refine le_trans ?_ (hall other hother)
        have hle := min_le_left amount (row.bound - weightedSum row.coefficients assignment)
        split
        · linarith
        · exact le_refl _

/-- Two columns for each variable, with the positive and the negative part of its value. -/
def splitColumns (assignment : String → ℚ) (names : List String) : List ℚ :=
  names.flatMap fun name => [max (assignment name) 0, max (-assignment name) 0]

theorem length_splitColumns (assignment : String → ℚ) (names : List String) :
    (splitColumns assignment names).length = 2 * names.length := by
  induction names with
  | nil => rfl
  | cons name rest ih =>
    rw [splitColumns, List.flatMap_cons, List.length_append, ← splitColumns, ih, List.length_cons]
    exact (Nat.mul_succ 2 _ ▸ Nat.add_comm _ _)

theorem readOff_splitColumns {name : String} (h : name ∈ names) (others : List ℚ) :
    readOff names (splitColumns assignment names ++ others) name = assignment name := by
  induction names with
  | nil => exact absurd h List.not_mem_nil
  | cons first rest ih =>
    unfold readOff
    change (max (assignment first) 0 :: max (-assignment first) 0 ::
      (splitColumns assignment rest ++ others)).getD _ 0 - List.getD (_ :: _ :: _) _ 0 = _
    by_cases hname : first = name
    · subst hname
      rw [List.idxOf_cons_self, Nat.mul_zero, List.getD_cons_zero, List.getD_cons_succ, List.getD_cons_zero]
      exact max_zero_sub_max_neg_zero_eq_self _
    · have hrest := ih ((List.mem_cons.1 h).resolve_left (Ne.symm hname))
      rw [List.idxOf_cons_ne _ hname, Nat.mul_succ, List.getD_cons_succ, List.getD_cons_succ,
        List.getD_cons_succ, List.getD_cons_succ]
      exact hrest

theorem weightedSum_congr {coefficients : NameMap ℚ} {other : String → ℚ}
    (h : ∀ name ∈ coefficients.keys, assignment name = other name) :
    weightedSum coefficients assignment = weightedSum coefficients other :=
  congrArg sum (List.map_congr_left fun term hterm => by
    rw [h term.1 (List.mem_map_of_mem hterm)])

/-- Where the rows hold there is a feasible assignment with a margin. -/
theorem Encodes.exists_feasible (h : Encodes names rows program)
    (hsub : ∀ row ∈ rows, ∀ name ∈ row.coefficients.keys, name ∈ names)
    (hholds : ∀ row ∈ rows, row.Holds assignment) :
    ∃ x, program.Feasible x ∧ (rows.any Row.strict = true → 0 < margin names x) := by
  obtain ⟨amount, hpositive, hone, hall⟩ := exists_margin hholds
  have hlength := length_splitColumns assignment names
  have hnonneg : ∀ value ∈ splitColumns assignment names, 0 ≤ value := by
    intro value hvalue
    obtain ⟨name, -, hvalue⟩ := List.mem_flatMap.1 hvalue
    rcases List.mem_pair.1 hvalue with rfl | rfl
    · exact le_max_right _ _
    · exact le_max_right _ _
  -- each value is split into its positive and its negative part, and the margin comes last
  set x := splitColumns assignment names ++ if rows.any Row.strict then [amount] else [] with hx
  have hmargin : rows.any Row.strict = true → margin names x = amount := by
    intro hany
    rw [margin, hx, hany, if_pos rfl, List.getD_append_right _ _ _ _ hlength.le, hlength, Nat.sub_self,
      List.getD_cons_zero]
  refine ⟨x, ⟨?_, ?_, (h.meets x).2 ⟨fun row hrow => ?_, fun hany => ?_⟩⟩, fun hany => ?_⟩
  · rw [h.columns, hx, List.length_append, hlength]
    split <;> rfl
  · refine List.forall_mem_append.2 ⟨hnonneg, ?_⟩
    split
    · exact List.forall_mem_singleton.2 hpositive.le
    · exact List.forall_mem_nil _
  · rw [weightedSum_congr fun name hname => readOff_splitColumns (hsub row hrow name hname) _]
    refine le_trans (le_of_eq ?_) (hall row hrow)
    cases hstrict : row.strict with
    | true => rw [if_pos rfl, if_pos rfl, hmargin (List.any_eq_true.2 ⟨row, hrow, hstrict⟩)]
    | false => rfl
  · rwa [hmargin hany]
  · rwa [hmargin hany]

end Satisfiability.Linear
