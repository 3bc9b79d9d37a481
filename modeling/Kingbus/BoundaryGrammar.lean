import Kingbus.TrxBoundary
import Kingbus.Lib.FirstReturn

/-! # The grammar of the transaction boundary parser

`UpdateState` follows the patterns of DDL and DML that stand above `eventParserState`.  Here
they are a grammar of units, and the parser accepts exactly the sequences of units: its state
tells which beginning of a unit it has read, and the units are its first returns to `None`. -/

namespace Kingbus

/-- The state after a call of `UpdateState` that succeeds. -/
def ParserState.advance (s : ParserState) (b : EventBoundaryType) : Option ParserState :=
  if (s.updateState b).2 then Option.none else some (s.updateState b).1

/-- The state after calls of `UpdateState` that all succeed. -/
def ParserState.accept (s : ParserState) (es : List EventBoundaryType) : Option ParserState :=
  Runs.exec advance s es

/-- The items that the parser looks at. -/
def significant (es : List EventBoundaryType) : List EventBoundaryType :=
  es.filter (· ≠ .ignore)

theorem significant_append (xs ys : List EventBoundaryType) :
    significant (xs ++ ys) = significant xs ++ significant ys :=
  List.filter_append xs ys

theorem ignore_notMem_significant (es : List EventBoundaryType) :
    .ignore ∉ significant es := by
  simp [significant]

theorem ParserState.accept_significant (s : ParserState) (es : List EventBoundaryType) :
    s.accept (significant es) = s.accept es := by
  induction es generalizing s with
  | nil => rfl
  | cons b es ih =>
      by_cases hb : b = .ignore
      · subst hb
        exact ih s
      · simp only [significant, List.filter_cons, hb, ne_eq, not_false_eq_true, decide_true,
          if_true]
        change (s.advance b).bind _ = (s.advance b).bind _
        exact congrArg _ (funext ih)

/-! ## Units -/

/-- `[GTID]`. -/
def OptGtid (g : List EventBoundaryType) : Prop :=
  g = [] ∨ g = [.gtid]

/-- A transaction from its first item to its last. -/
inductive WholeUnit : List EventBoundaryType → Prop where
  | ddl {g pres : List EventBoundaryType} (hg : OptGtid g)
      (hpres : ∀ b ∈ pres, b = .preStatement) : WholeUnit (g ++ pres ++ [.statement])
  | dml {g body : List EventBoundaryType} {e : EventBoundaryType} (hg : OptGtid g)
      (hbody : ∀ b ∈ body, b = .statement ∨ b = .preStatement)
      (he : e = .endTrx ∨ e = .endXaTrx) : WholeUnit (g ++ .beginTrx :: body ++ [e])
  | xa : WholeUnit [.gtid, .endXaTrx]

/-- A transaction, or one that an incident cuts off. -/
inductive TrxUnit : List EventBoundaryType → Prop where
  | whole {u : List EventBoundaryType} (h : WholeUnit u) : TrxUnit u
  | incident {x y : List EventBoundaryType} (h : WholeUnit (x ++ y)) (hy : y ≠ []) :
      TrxUnit (x ++ [.incident])

/-- What the parser has read of a unit in each of its states. -/
inductive Beginning : ParserState → List EventBoundaryType → Prop where
  | none : Beginning .none []
  | gtid : Beginning .gtid [.gtid]
  | ddl {g pres : List EventBoundaryType} (hg : OptGtid g) (hne : pres ≠ [])
      (hpres : ∀ b ∈ pres, b = .preStatement) : Beginning .ddl (g ++ pres)
  | dml {g body : List EventBoundaryType} (hg : OptGtid g)
      (hbody : ∀ b ∈ body, b = .statement ∨ b = .preStatement) :
      Beginning .dml (g ++ .beginTrx :: body)

/-! ## Forward: one more item -/

section
variable {s s' : ParserState} {b : EventBoundaryType} {g pres body x y : List EventBoundaryType}

theorem OptGtid.nil : OptGtid [] := Or.inl rfl

theorem OptGtid.gtid : OptGtid [.gtid] := Or.inr rfl

theorem Beginning.completes (h : Beginning s x) : ∃ y, y ≠ [] ∧ WholeUnit (x ++ y) := by
  cases h with
  | none => exact ⟨[.statement], by simp, .ddl .nil (List.forall_mem_nil _)⟩
  | gtid => exact ⟨[.statement], by simp, .ddl .gtid (List.forall_mem_nil _)⟩
  | ddl hg _ hpres => exact ⟨[.statement], by simp, .ddl hg hpres⟩
  | dml hg hbody => exact ⟨[.endTrx], by simp, .dml hg hbody (.inl rfl)⟩

theorem Beginning.incident (h : Beginning s x) : TrxUnit (x ++ [.incident]) := by
  obtain ⟨y, hy, hwhole⟩ := h.completes
  exact .incident hwhole hy

theorem forall_mem_snoc {P : EventBoundaryType → Prop} {l : List EventBoundaryType}
    (h : ∀ b ∈ l, P b) {c : EventBoundaryType} (hc : P c) : ∀ b ∈ l ++ [c], P b := by
  intro b hb
  rcases List.mem_append.mp hb with hb | hb
  · exact h b hb
  · exact List.mem_singleton.mp hb ▸ hc

/-- **One step**: an item that the parser takes ends the unit or continues it. -/
theorem Beginning.step (h : Beginning s x) (hb : b ≠ .ignore) (hs : s.advance b = some s') :
    (s' = .none ∧ TrxUnit (x ++ [b])) ∨ Beginning s' (x ++ [b]) := by
  cases h with
  | none =>
      cases b with
      | gtid => cases hs; exact .inr .gtid
      | beginTrx => cases hs; exact .inr (.dml .nil (List.forall_mem_nil _))
      | preStatement => cases hs; exact .inr (.ddl .nil (by simp) (by simp))
      | statement => cases hs; exact .inl ⟨rfl, .whole (.ddl .nil (List.forall_mem_nil _))⟩
      | incident => cases hs; exact .inl ⟨rfl, Beginning.none.incident⟩
      | ignore => exact absurd rfl hb
      | _ => cases hs
  | gtid =>
      cases b with
      | beginTrx => cases hs; exact .inr (.dml .gtid (List.forall_mem_nil _))
      | endXaTrx => cases hs; exact .inl ⟨rfl, .whole .xa⟩
      | preStatement => cases hs; exact .inr (.ddl .gtid (by simp) (by simp))
      | statement => cases hs; exact .inl ⟨rfl, .whole (.ddl .gtid (List.forall_mem_nil _))⟩
      | incident => cases hs; exact .inl ⟨rfl, Beginning.gtid.incident⟩
      | ignore => exact absurd rfl hb
      | _ => cases hs
  | ddl hg hne hpres =>
      cases b with
      | preStatement =>
          cases hs
          rw [List.append_assoc]
          exact .inr (.ddl hg (by simp) (forall_mem_snoc hpres rfl))
      | statement => cases hs; exact .inl ⟨rfl, .whole (.ddl hg hpres)⟩
      | incident => cases hs; exact .inl ⟨rfl, (Beginning.ddl hg hne hpres).incident⟩
      | ignore => exact absurd rfl hb
      | _ => cases hs
  | dml hg hbody =>
      cases b with
      | preStatement =>
          cases hs
          rw [List.append_assoc]
          exact .inr (.dml hg (forall_mem_snoc hbody (.inr rfl)))
      | statement =>
          cases hs
          rw [List.append_assoc]
          exact .inr (.dml hg (forall_mem_snoc hbody (.inl rfl)))
      | endTrx => cases hs; exact .inl ⟨rfl, .whole (.dml hg hbody (.inl rfl))⟩
      | endXaTrx => cases hs; exact .inl ⟨rfl, .whole (.dml hg hbody (.inr rfl))⟩
      | incident => cases hs; exact .inl ⟨rfl, (Beginning.dml hg hbody).incident⟩
      | ignore => exact absurd rfl hb
      | _ => cases hs

/-! ## Backward: one item less -/

theorem Beginning.eq_nil (h : Beginning .none x) : x = [] := by
  cases h
  rfl

theorem Beginning.eq_none (h : Beginning s []) : s = .none := by
  generalize hw : ([] : List EventBoundaryType) = w at h
  cases h with
  | none => rfl
  | gtid => cases hw
  | ddl _ hne => exact absurd (List.append_eq_nil_iff.mp hw.symm).2 hne
  | dml => simp at hw

/-- Before the statement of a DDL the parser can take both kinds of statement. -/
theorem OptGtid.beginning (hg : OptGtid g) (hpres : ∀ b ∈ pres, b = .preStatement) :
    ∃ s, Beginning s (g ++ pres) ∧ s.advance .preStatement = some .ddl ∧
      s.advance .statement = some .none := by
  by_cases hne : pres = []
  · subst hne
    rcases hg with rfl | rfl
    · exact ⟨.none, .none, rfl, rfl⟩
    · exact ⟨.gtid, .gtid, rfl, rfl⟩
  · exact ⟨.ddl, .ddl hg hne hpres, rfl, rfl⟩

theorem Beginning.unsnoc (h : Beginning s (x ++ [b])) :
    ∃ s', Beginning s' x ∧ s'.advance b = some s := by
  generalize hw : x ++ [b] = w at h
  cases h with
  | none => simp at hw
  | gtid =>
      have hw : x ++ [b] = [] ++ [.gtid] := hw
      obtain ⟨rfl, ⟨⟩⟩ := List.append_inj' hw rfl
      exact ⟨.none, .none, rfl⟩
  | ddl hg hne hpres =>
      rename_i g pres
      obtain ⟨pres, c, rfl⟩ := (List.eq_nil_or_concat' pres).resolve_left hne
      rw [← List.append_assoc] at hw
      obtain ⟨rfl, ⟨⟩⟩ := List.append_inj' hw rfl
      obtain rfl := hpres b (by simp)
      obtain ⟨s', hs', hadv, -⟩ := hg.beginning fun c hc => hpres c (List.mem_append_left _ hc)
      exact ⟨s', hs', hadv⟩
  | dml hg hbody =>
      rename_i g body
      rcases List.eq_nil_or_concat' body with rfl | ⟨body, c, rfl⟩
      · obtain ⟨rfl, ⟨⟩⟩ := List.append_inj' hw rfl
        rcases hg with rfl | rfl
        · exact ⟨.none, .none, rfl⟩
        · exact ⟨.gtid, .gtid, rfl⟩
      · rw [← List.cons_append, ← List.append_assoc] at hw
        obtain ⟨rfl, ⟨⟩⟩ := List.append_inj' hw rfl
        refine ⟨.dml, .dml hg fun c hc => hbody c (List.mem_append_left _ hc), ?_⟩
        rcases hbody b (by simp) with rfl | rfl
        · rfl
        · rfl

theorem WholeUnit.unsnoc (h : WholeUnit (x ++ [b])) :
    ∃ s, Beginning s x ∧ s.advance b = some .none := by
  generalize hw : x ++ [b] = w at h
  cases h with
  | ddl hg hpres =>
      obtain ⟨rfl, ⟨⟩⟩ := List.append_inj' hw rfl
      obtain ⟨s, hs, -, hadv⟩ := hg.beginning hpres
      exact ⟨s, hs, hadv⟩
  | dml hg hbody he =>
      obtain ⟨rfl, ⟨⟩⟩ := List.append_inj' hw rfl
      refine ⟨.dml, .dml hg hbody, ?_⟩
      rcases he with rfl | rfl
      · rfl
      · rfl
  | xa =>
      have hw : x ++ [b] = [.gtid] ++ [.endXaTrx] := hw
      obtain ⟨rfl, ⟨⟩⟩ := List.append_inj' hw rfl
      exact ⟨.gtid, .gtid, rfl⟩

theorem Beginning.left (h : Beginning s (x ++ y)) : ∃ s', Beginning s' x := by
  induction y using List.reverseRecOn generalizing s with
  | nil => exact ⟨s, List.append_nil x ▸ h⟩
  | append_singleton y b ih =>
      rw [← List.append_assoc] at h
      obtain ⟨s', hs', -⟩ := h.unsnoc
      exact ih hs'

theorem WholeUnit.left (h : WholeUnit (x ++ y)) (hy : y ≠ []) : ∃ s, Beginning s x := by
  obtain ⟨y, b, rfl⟩ := (List.eq_nil_or_concat' y).resolve_left hy
  rw [← List.append_assoc] at h
  obtain ⟨s, hs, -⟩ := h.unsnoc
  exact hs.left

theorem WholeUnit.ne_nil {u : List EventBoundaryType} (h : WholeUnit u) : u ≠ [] := by
  cases h <;> simp

theorem TrxUnit.unsnoc {u : List EventBoundaryType} (h : TrxUnit u) :
    ∃ x b s, u = x ++ [b] ∧ Beginning s x ∧ s.advance b = some .none := by
  cases h with
  | whole h =>
      obtain ⟨x, b, rfl⟩ := (List.eq_nil_or_concat' u).resolve_left h.ne_nil
      obtain ⟨s, hs, hadv⟩ := h.unsnoc
      exact ⟨x, b, s, rfl, hs, hadv⟩
  | incident h hy =>
      obtain ⟨s, hs⟩ := h.left hy
      exact ⟨_, .incident, s, rfl, hs, rfl⟩

/-! ## Units are the first returns -/

/-- The state belongs to what has been read. -/
theorem Beginning.exec (h : Beginning s x) :
    Runs.exec ParserState.advance .none x = some s := by
  induction x using List.reverseRecOn generalizing s with
  | nil =>
      rw [h.eq_none]
      rfl
  | append_singleton x b ih =>
      obtain ⟨s', hs', hadv⟩ := h.unsnoc
      rw [Runs.exec_append, ih hs', Option.bind_some, Runs.exec_cons, hadv]
      rfl

theorem TrxUnit.firstReturn {u : List EventBoundaryType} (h : TrxUnit u) :
    FirstReturn ParserState.advance .none u := by
  obtain ⟨x, b, s, rfl, hs, hadv⟩ := h.unsnoc
  refine ⟨by simp, ?_, ?_⟩
  · rw [Runs.exec_append, hs.exec, Option.bind_some, Runs.exec_cons, hadv]
    rfl
  · intro x' y' heq hx' hy' hback
    obtain ⟨y', c, rfl⟩ := (List.eq_nil_or_concat' y').resolve_left hy'
    rw [← List.append_assoc] at heq
    obtain ⟨rfl, -⟩ := List.append_inj' heq rfl
    obtain ⟨s', hs'⟩ := hs.left
    rw [hs'.exec, Option.some_inj] at hback
    subst hback
    exact hx' hs'.eq_nil

/-- Before its last item a first return is the beginning of a unit. -/
theorem Beginning.of_firstReturn {u : List EventBoundaryType}
    (h : FirstReturn ParserState.advance .none u) (hu : .ignore ∉ u) (heq : u = x ++ y)
    (hy : y ≠ []) : ∃ s, Beginning s x := by
  -- by induction on the beginning: an item that ended a unit would be an earlier return
  induction x using List.reverseRecOn generalizing y with
  | nil => exact ⟨.none, .none⟩
  | append_singleton x b ih =>
      obtain ⟨s, hs⟩ := ih (heq.trans (List.append_assoc ..)) (by simp)
      have hnot := h.first (x ++ [b]) y heq (by simp) hy
      have hret := h.returns
      rw [heq, Runs.exec_append] at hret
      obtain ⟨s', hs', -⟩ := Option.bind_eq_some_iff.mp hret
      rw [hs'] at hnot
      rw [Runs.exec_append, hs.exec, Option.bind_some, Runs.exec_cons] at hs'
      obtain ⟨t, hadv, ⟨⟩⟩ := Option.bind_eq_some_iff.mp hs'
      have hb : b ≠ .ignore := by
        rintro rfl
        exact hu (by simp [heq])
      rcases hs.step hb hadv with ⟨rfl, -⟩ | hnext
      · exact absurd rfl hnot
      · exact ⟨_, hnext⟩

theorem TrxUnit.of_firstReturn {u : List EventBoundaryType}
    (h : FirstReturn ParserState.advance .none u) (hu : .ignore ∉ u) : TrxUnit u := by
  obtain ⟨x, b, rfl⟩ := (List.eq_nil_or_concat' u).resolve_left h.ne_nil
  obtain ⟨s, hs⟩ := Beginning.of_firstReturn h hu rfl (by simp)
  have hret := h.returns
  rw [Runs.exec_append, hs.exec, Option.bind_some, Runs.exec_cons] at hret
  obtain ⟨t, hadv, ⟨⟩⟩ := Option.bind_eq_some_iff.mp hret
  have hb : b ≠ .ignore := by
    rintro rfl
    exact hu (by simp)
  rcases hs.step hb hadv with ⟨-, hunit⟩ | hnext
  · exact hunit
  · exact absurd hnext.eq_nil (by simp)

end

/-- **The parser accepts exactly the sequences of units**, and inside such a sequence it is in
state `None` exactly where units end. -/
theorem accept_iff_units (es : List EventBoundaryType) :
    (ParserState.none.accept es = some .none ↔
      ∃ us : List (List EventBoundaryType),
        (∀ u ∈ us, TrxUnit u) ∧ significant es = us.flatten) ∧
    ∀ us : List (List EventBoundaryType), (∀ u ∈ us, TrxUnit u) →
      significant es = us.flatten → ∀ read rest, es = read ++ rest →
        (ParserState.none.accept read = some .none ↔
          ∃ k, significant read = (us.take k).flatten) := by
  refine ⟨⟨fun h => ?_, ?_⟩, ?_⟩
  · rw [← ParserState.accept_significant] at h
    obtain ⟨us, hus, heq⟩ := FirstReturn.exists_flatten_eq h
    refine ⟨us, fun u hu => .of_firstReturn (hus u hu) fun hmem => ?_, heq⟩
    exact ignore_notMem_significant es (heq ▸ List.mem_flatten.mpr ⟨u, hu, hmem⟩)
  · rintro ⟨us, hus, heq⟩
    rw [← ParserState.accept_significant, heq]
    exact FirstReturn.exec_flatten fun u hu => (hus u hu).firstReturn
  · rintro us hus heq read rest rfl
    rw [← ParserState.accept_significant]
    rw [significant_append] at heq
    exact FirstReturn.exec_left_iff (fun u hu => (hus u hu).firstReturn) heq.symm

/-- An incident cuts a transaction off, and an XA rollback follows. -/
theorem accept_units_cut_off :
    ParserState.none.accept
      [.gtid, .ignore, .beginTrx, .statement, .incident, .ignore, .gtid, .endXaTrx] =
        some .none := by
  refine (accept_iff_units _).1.mpr
    ⟨[[.gtid, .beginTrx, .statement, .incident], [.gtid, .endXaTrx]], ?_, rfl⟩
  have hcut : Beginning .dml [.gtid, .beginTrx, .statement] :=
    Beginning.dml .gtid (List.forall_mem_singleton.mpr (.inl rfl))
  exact List.forall_mem_cons.mpr ⟨hcut.incident, List.forall_mem_singleton.mpr (.whole .xa)⟩

end Kingbus
