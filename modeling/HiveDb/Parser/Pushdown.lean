import HiveDb.Lib.Scan
import HiveDb.Parser.Phrases

/-!
# The positions of the parser

Where the functions for expressions stand between two tokens, and what they have
to come back to: the calls that have not returned yet are a stack of frames, and
a token leads from one position to the next or is refused.  The positions are
those of a pushdown automaton that accepts the beginnings of select statements.
-/

namespace HiveDb.Parser

open HiveDb.Lib

/-! ## Positions and their steps -/

/-- What a call of `selectExpr` returns to. -/
inductive Place where
  | statement | grouped | bare

/-- A call of `binaryExpr` that has not returned yet, by what follows it. -/
inductive Frame where
  | grouping
  | list (place : Place)
  | single (place : Place)

inductive Position where
  | operand (frames : List Frame)
  /-- Behind the parenthesis of a grouping. -/
  | grouped (frames : List Frame)
  /-- Behind `select`. -/
  | select (place : Place) (frames : List Frame)
  /-- Behind an operand. -/
  | behind (frames : List Frame)
  /-- Behind the parenthesis that closes the list of a select. -/
  | behindList (place : Place) (frames : List Frame)
  /-- Behind `from`. -/
  | fromName (place : Place) (frames : List Frame)
  /-- Behind the table name of a select. -/
  | behindSelect (place : Place) (frames : List Frame)

/-- An operand has to follow. -/
def Position.BeforeOperand : Position → Prop
  | .operand _ | .grouped _ | .select _ _ => True
  | _ => False

/-- The parenthesis that closes a grouping. -/
def closeGrouping (frames : List Frame) (token : Token) : Option Position :=
  if token.type = .parenthesesR then some (.behind frames) else none

/-- A token behind an operand. -/
def goOn : List Frame → Token → Option Position
  | frames, token =>
      if token.type.binaryOperator.isSome then some (.operand frames)
      else
        match frames with
        | [] => none
        | .grouping :: frames => closeGrouping frames token
        | .list place :: frames =>
            if token.type = .comma then some (.operand (.list place :: frames))
            else if token.type = .parenthesesR then some (.behindList place frames)
            else none
        | .single place :: frames =>
            if token.type = .from then some (.fromName place frames)
            else
              match place with
              | .statement => none
              | .grouped => closeGrouping frames token
              | .bare => goOn frames token

/-- A token behind a select. -/
def leaveSelect (place : Place) (frames : List Frame) (token : Token) : Option Position :=
  match place with
  | .statement => none
  | .grouped => closeGrouping frames token
  | .bare => goOn frames token

/-- A token behind the expressions of a select. -/
def endSelect (place : Place) (frames : List Frame) (token : Token) : Option Position :=
  if token.type = .from then some (.fromName place frames) else leaveSelect place frames token

/-- A token behind `from`. -/
def readName (place : Place) (frames : List Frame) (token : Token) : Option Position :=
  if token.type = .identifier then some (.behindSelect place frames) else none

section Steps

variable [FloatUnit]

/-- A token where an operand begins. -/
def beginOperand (frames : List Frame) (token : Token) : Option Position :=
  if token.type.unaryOperator.isSome then some (.operand frames)
  else if isOperand token then some (.behind frames)
  else if token.type = .parenthesesL then some (.grouped frames)
  else if token.type = .select then some (.select .bare frames)
  else none

/-- A token behind the parenthesis of a grouping. -/
def beginGrouping (frames : List Frame) (token : Token) : Option Position :=
  if token.type = .select then some (.select .grouped frames)
  else beginOperand (.grouping :: frames) token

/-- A token behind `select`. -/
def beginSelect (place : Place) (frames : List Frame) (token : Token) : Option Position :=
  if token.type = .parenthesesL then some (.operand (.list place :: frames))
  else beginOperand (.single place :: frames) token

def Position.step : Position → Token → Option Position
  | .operand frames, token => beginOperand frames token
  | .grouped frames, token => beginGrouping frames token
  | .select place frames, token => beginSelect place frames token
  | .behind frames, token => goOn frames token
  | .behindList place frames, token => endSelect place frames token
  | .fromName place frames, token => readName place frames token
  | .behindSelect place frames, token => leaveSelect place frames token

/-- The tokens are read to their end from the position, and an operand has to follow. -/
def Waits : Position → List Token → Prop := EndsIn Position.step Position.BeforeOperand

/-- The tokens are read to their end from the position. -/
def Scans : Position → List Token → Prop := EndsIn Position.step fun _ => True

end Steps

section Steps

variable [FloatUnit] {frames : List Frame} {token : Token}

theorem beginOperand_unary (hop : token.type.unaryOperator.isSome) :
    beginOperand frames token = some (.operand frames) := if_pos hop

theorem beginOperand_literal (h : isOperand token) :
    beginOperand frames token = some (.behind frames) := by
  have hop : ¬ token.type.unaryOperator.isSome := by
    intro hop
    unfold isOperand at h
    cases htype : token.type <;> simp [htype, TokenType.unaryOperator] at h hop
  rw [beginOperand, if_neg hop, if_pos h]

theorem beginOperand_left (htype : token.type = .parenthesesL) :
    beginOperand frames token = some (.grouped frames) := by
  simp [beginOperand, isOperand, htype, TokenType.unaryOperator]

theorem beginOperand_select (htype : token.type = .select) :
    beginOperand frames token = some (.select .bare frames) := by
  simp [beginOperand, isOperand, htype, TokenType.unaryOperator]

end Steps

theorem not_operator_of_type {token : Token} {type : TokenType} (htype : token.type = type)
    (hnone : type.binaryOperator = none) : ¬ token.type.binaryOperator.isSome := by
  rw [htype, hnone]
  exact Bool.false_ne_true

theorem closeGrouping_right {frames : List Frame} {token : Token}
    (htype : token.type = .parenthesesR) : closeGrouping frames token = some (.behind frames) :=
  if_pos htype

theorem goOn_operator {frames : List Frame} {token : Token}
    (hop : token.type.binaryOperator.isSome) : goOn frames token = some (.operand frames) := by
  unfold goOn
  exact if_pos hop

theorem goOn_nil {token : Token} (hop : ¬ token.type.binaryOperator.isSome) :
    goOn [] token = none := by
  unfold goOn
  exact if_neg hop

theorem goOn_grouping {frames : List Frame} {token : Token}
    (hop : ¬ token.type.binaryOperator.isSome) :
    goOn (.grouping :: frames) token = closeGrouping frames token := by
  conv => lhs; unfold goOn
  exact if_neg hop

theorem goOn_list {place : Place} {frames : List Frame} {token : Token}
    (hop : ¬ token.type.binaryOperator.isSome) :
    goOn (.list place :: frames) token =
      if token.type = .comma then some (.operand (.list place :: frames))
      else if token.type = .parenthesesR then some (.behindList place frames)
      else none := by
  conv => lhs; unfold goOn
  exact if_neg hop

theorem goOn_single {place : Place} {frames : List Frame} {token : Token}
    (hop : ¬ token.type.binaryOperator.isSome) :
    goOn (.single place :: frames) token = endSelect place frames token := by
  conv => lhs; unfold goOn
  exact if_neg hop

/-- Only the call for a select takes `from`. -/
theorem goOn_from {frames : List Frame} {token : Token} {next : Position}
    (htype : token.type = .from) (h : goOn frames token = some next) :
    ∃ place rest, frames = .single place :: rest ∧ next = .fromName place rest := by
  have hop : ¬ token.type.binaryOperator.isSome := by simp [htype, TokenType.binaryOperator]
  cases frames with
  | nil => cases (goOn_nil hop).symm.trans h
  | cons frame rest =>
      cases frame with
      | grouping => simp [goOn_grouping hop, closeGrouping, htype] at h
      | list place => simp [goOn_list hop, htype] at h
      | single place =>
          rw [goOn_single hop, endSelect, if_pos htype] at h
          exact ⟨place, rest, rfl, (Option.some.inj h).symm⟩

/-- Behind a select that was not in parentheses, everything goes on as behind an operand. -/
theorem leaveSelect_of_ne_close {place : Place} {frames : List Frame} {token : Token}
    {next : Position} (hclose : token.type ≠ .parenthesesR)
    (h : leaveSelect place frames token = some next) :
    place = .bare ∧ goOn frames token = some next := by
  cases place with
  | statement => cases h
  | grouped => simp [leaveSelect, closeGrouping, hclose] at h
  | bare => exact ⟨rfl, h⟩

/-! ## More frames -/

/--
The larger stack has selects without parentheses among the frames of the other
one.  Such a select needs nothing behind it, so it refuses no token.
-/
inductive Covers : List Frame → List Frame → Prop where
  | nil : Covers [] []
  | cons {frames more : List Frame} (frame : Frame) (h : Covers frames more) :
      Covers (frame :: frames) (frame :: more)
  | bare {frames more : List Frame} (h : Covers frames more) :
      Covers frames (.single .bare :: more)

theorem Covers.refl (frames : List Frame) : Covers frames frames := by
  induction frames with
  | nil => exact .nil
  | cons frame frames ih => exact .cons frame ih

theorem Covers.of_bare {frames more : List Frame} (h : Covers (.single .bare :: frames) more) :
    Covers frames more := by
  generalize hall : Frame.single .bare :: frames = all at h
  induction h with
  | nil => cases hall
  | cons frame h =>
      cases hall
      exact .bare h
  | bare h ih => exact .bare (ih hall)

/-- The second position takes every token that the first one takes. -/
inductive Position.Covers : Position → Position → Prop where
  | operand {frames more : List Frame} (h : Parser.Covers frames more) :
      Covers (.operand frames) (.operand more)
  | grouped {frames more : List Frame} (h : Parser.Covers frames more) :
      Covers (.grouped frames) (.grouped more)
  | select {frames more : List Frame} (place : Place) (h : Parser.Covers frames more) :
      Covers (.select place frames) (.select place more)
  | behind {frames more : List Frame} (h : Parser.Covers frames more) :
      Covers (.behind frames) (.behind more)
  | behindList {frames more : List Frame} (place : Place) (h : Parser.Covers frames more) :
      Covers (.behindList place frames) (.behindList place more)
  | fromName {frames more : List Frame} (place : Place) (h : Parser.Covers frames more) :
      Covers (.fromName place frames) (.fromName place more)
  | behindSelect {frames more : List Frame} (place : Place) (h : Parser.Covers frames more) :
      Covers (.behindSelect place frames) (.behindSelect place more)
  /-- A select inside takes the `from` clause. -/
  | fromInside {place : Place} {frames more : List Frame}
      (h : Parser.Covers (.single place :: frames) more) :
      Covers (.fromName place frames) (.fromName .bare more)
  | behindInside {place : Place} {frames more : List Frame}
      (h : Parser.Covers (.single place :: frames) more) :
      Covers (.behindSelect place frames) (.behindSelect .bare more)
  | endedList {frames more : List Frame} (place : Place) (h : Parser.Covers frames more) :
      Covers (.behindSelect place frames) (.behindList place more)
  /-- A select may end without a `from` clause. -/
  | ended {place : Place} {frames more : List Frame}
      (h : Parser.Covers (.single place :: frames) more) :
      Covers (.behindSelect place frames) (.behind more)

section Simulation

variable {frames more : List Frame} {token : Token} {next : Position}

/-- The same test on both stacks, and the same for what is tried behind it. -/
theorem test_covers {p : Prop} [Decidable p] {taken taken' : Position}
    {tried tried' : Option Position} (htaken : taken.Covers taken')
    (htried : tried = some next → ∃ next', tried' = some next' ∧ next.Covers next')
    (hstep : (if p then some taken else tried) = some next) :
    ∃ next', (if p then some taken' else tried') = some next' ∧ next.Covers next' := by
  split at hstep
  · cases hstep
    exact ⟨taken', if_pos ‹p›, htaken⟩
  · rw [if_neg ‹¬ p›]
    exact htried hstep

/-- The last test on both stacks. -/
theorem last_test_covers {p : Prop} [Decidable p] {taken taken' : Position}
    (htaken : taken.Covers taken') (hstep : (if p then some taken else none) = some next) :
    ∃ next', (if p then some taken' else none) = some next' ∧ next.Covers next' := by
  refine test_covers htaken (fun hnone => ?_) hstep
  cases hnone

theorem closeGrouping_covers (h : Covers frames more)
    (hstep : closeGrouping frames token = some next) :
    ∃ next', closeGrouping more token = some next' ∧ next.Covers next' :=
  last_test_covers (.behind h) hstep

theorem endSelect_covers {place : Place} (h : Covers frames more)
    (hleave : leaveSelect place frames token = some next →
      ∃ next', leaveSelect place more token = some next' ∧ next.Covers next')
    (hstep : endSelect place frames token = some next) :
    ∃ next', endSelect place more token = some next' ∧ next.Covers next' :=
  test_covers (.fromName place h) hleave hstep

theorem goOn_covers (h : Covers frames more) (hstep : goOn frames token = some next) :
    ∃ next', goOn more token = some next' ∧ next.Covers next' := by
  by_cases hop : token.type.binaryOperator.isSome
  · cases (goOn_operator hop).symm.trans hstep
    exact ⟨_, goOn_operator hop, .operand h⟩
  · induction h with
    | nil => cases (goOn_nil hop).symm.trans hstep
    | @cons frames more frame h ih =>
        cases frame with
        | grouping =>
            rw [goOn_grouping hop] at hstep ⊢
            exact closeGrouping_covers h hstep
        | list place =>
            rw [goOn_list hop] at hstep ⊢
            exact test_covers (.operand (.cons _ h)) (last_test_covers (.behindList place h)) hstep
        | single place =>
            rw [goOn_single hop] at hstep ⊢
            refine endSelect_covers h (fun hleave => ?_) hstep
            cases place with
            | statement => cases hleave
            | grouped => exact closeGrouping_covers h hleave
            | bare => exact ih hleave
    | @bare frames more h ih =>
        rw [goOn_single hop, endSelect]
        by_cases hfrom : token.type = .from
        · obtain ⟨place, rest, rfl, rfl⟩ := goOn_from hfrom hstep
          exact ⟨_, if_pos hfrom, .fromInside h⟩
        · rw [if_neg hfrom]
          exact ih hstep

theorem leaveSelect_covers {place : Place} (h : Covers frames more)
    (hstep : leaveSelect place frames token = some next) :
    ∃ next', leaveSelect place more token = some next' ∧ next.Covers next' := by
  cases place with
  | statement => cases hstep
  | grouped => exact closeGrouping_covers h hstep
  | bare => exact goOn_covers h hstep

/-- A token that ends a select may go on with the one on top of the other stack. -/
theorem single_covers {place inside : Place}
    (hinside : place = .bare → inside = .bare ∧ Covers frames more)
    (hstep : leaveSelect place frames token = some next)
    (hleave : ∃ next', leaveSelect inside more token = some next' ∧ next.Covers next') :
    ∃ next', goOn (.single inside :: more) token = some next' ∧ next.Covers next' := by
  by_cases hop : token.type.binaryOperator.isSome
  · have hclose : token.type ≠ .parenthesesR := by
      intro htype
      simp [htype, TokenType.binaryOperator] at hop
    obtain ⟨hbare, hinner⟩ := leaveSelect_of_ne_close hclose hstep
    obtain ⟨rfl, h⟩ := hinside hbare
    cases (goOn_operator hop).symm.trans hinner
    exact ⟨_, goOn_operator hop, .operand (.bare h)⟩
  · rw [goOn_single hop, endSelect]
    by_cases hfrom : token.type = .from
    · obtain ⟨hbare, hinner⟩ := leaveSelect_of_ne_close (by simp [hfrom]) hstep
      obtain ⟨rfl, h⟩ := hinside hbare
      obtain ⟨outer, rest, rfl, rfl⟩ := goOn_from hfrom hinner
      exact ⟨_, if_pos hfrom, .fromInside h⟩
    · rw [if_neg hfrom]
      exact hleave

/-- A select that might go on does so where the one that has ended is left. -/
theorem ended_covers {place : Place} (h : Covers (.single place :: frames) more)
    (hstep : leaveSelect place frames token = some next) :
    ∃ next', goOn more token = some next' ∧ next.Covers next' := by
  generalize hall : Frame.single place :: frames = all at h
  induction h with
  | nil => cases hall
  | @cons _ more frame h ih =>
      cases hall
      exact single_covers (fun hbare => ⟨hbare, h⟩) hstep (leaveSelect_covers h hstep)
  | @bare _ more h ih =>
      subst hall
      refine single_covers ?_ hstep (ih rfl)
      rintro rfl
      exact ⟨rfl, h.of_bare⟩

theorem endedList_covers {place : Place} (h : Covers frames more)
    (hstep : leaveSelect place frames token = some next) :
    ∃ next', endSelect place more token = some next' ∧ next.Covers next' := by
  by_cases hfrom : token.type = .from
  · obtain ⟨rfl, hinner⟩ := leaveSelect_of_ne_close (by simp [hfrom]) hstep
    obtain ⟨outer, rest, rfl, rfl⟩ := goOn_from hfrom hinner
    exact ⟨_, if_pos hfrom, .fromInside h⟩
  · rw [endSelect, if_neg hfrom]
    exact leaveSelect_covers h hstep

end Simulation

section Runs

variable [FloatUnit]

theorem beginOperand_covers {frames more : List Frame} {token : Token} {next : Position}
    (h : Covers frames more) (hstep : beginOperand frames token = some next) :
    ∃ next', beginOperand more token = some next' ∧ next.Covers next' :=
  test_covers (.operand h) (test_covers (.behind h)
    (test_covers (.grouped h) (last_test_covers (.select .bare h)))) hstep

theorem Position.Covers.step {position larger next : Position} {token : Token}
    (h : position.Covers larger) (hstep : position.step token = some next) :
    ∃ next', larger.step token = some next' ∧ next.Covers next' := by
  cases h with
  | operand h => exact beginOperand_covers h hstep
  | grouped h => exact test_covers (.select .grouped h) (beginOperand_covers (.cons _ h)) hstep
  | select place h =>
      exact test_covers (.operand (.cons _ h)) (beginOperand_covers (.cons _ h)) hstep
  | behind h => exact goOn_covers h hstep
  | behindList place h => exact endSelect_covers h (leaveSelect_covers h) hstep
  | fromName place h => exact last_test_covers (.behindSelect place h) hstep
  | behindSelect place h => exact leaveSelect_covers h hstep
  | fromInside h => exact last_test_covers (.behindInside h) hstep
  | behindInside h => exact ended_covers h hstep
  | endedList place h => exact endedList_covers h hstep
  | ended h => exact ended_covers h hstep

theorem Position.Covers.scans {position larger : Position} {tokens : List Token}
    (h : position.Covers larger) (hscans : Scans position tokens) : Scans larger tokens :=
  hscans.simulate (fun _ _ _ _ hcovers hstep => hcovers.step hstep) (fun _ _ _ htrue => htrue) h

/-! ## Phrases are read -/

/-- The phrase leads from where the function starts to where it returns. -/
def Leads (e : List Token) : Phrase → Prop
  | .binaryExpr | .unaryExpr => ∀ frames rest,
      Scans (.behind frames) rest → Scans (.operand frames) (e ++ rest)
  | .selectExpr => ∀ place frames rest,
      Scans (.behindSelect place frames) rest → Scans (.select place frames) (e ++ rest)
  | .innerExpr => ∀ place frames (right : Token) rest, right.type = .parenthesesR →
      Scans (.behindList place frames) rest →
        Scans (.operand (.list place :: frames)) (e ++ right :: rest)

theorem scans_cons {position next : Position} {token : Token} {tokens : List Token}
    (hstep : position.step token = some next) (h : Scans next tokens) :
    Scans position (token :: tokens) := (EndsIn.cons_iff hstep).mpr h

theorem scans_clause {place : Place} {frames : List Frame} {clause rest : List Token}
    (hclause : FromPhrase clause) (h : Scans (.behindSelect place frames) rest) :
    Scans (.behind (.single place :: frames)) (clause ++ rest) ∧
      Scans (.behindList place frames) (clause ++ rest) := by
  cases hclause with
  | none =>
      have hended : Position.Covers (.behindSelect place frames)
          (.behind (.single place :: frames)) := .ended (.refl _)
      have hlist : Position.Covers (.behindSelect place frames) (.behindList place frames) :=
        .endedList place (.refl _)
      exact ⟨hended.scans h, hlist.scans h⟩
  | @named word name hword hname =>
      have hop := not_operator_of_type hword rfl
      have hrest : Scans (.fromName place frames) (name :: rest) := scans_cons (if_pos hname) h
      have hend : endSelect place frames word = some (.fromName place frames) := if_pos hword
      exact ⟨scans_cons ((goOn_single hop).trans hend) hrest, scans_cons hend hrest⟩

/-- Behind a parenthesis or `select`, any other token begins an operand. -/
theorem scans_first {position : Position} {frames : List Frame} {e rest : List Token}
    (hne : e ≠ [])
    (hfirst : ∀ next ∈ e.head?, position.step next = beginOperand frames next)
    (h : Scans (.operand frames) (e ++ rest)) : Scans position (e ++ rest) := by
  obtain ⟨first, others, rfl⟩ := List.exists_cons_of_ne_nil hne
  exact (EndsIn.congr_step (hfirst first rfl)).mpr h

theorem scans_of_derives {phrase : Phrase} {e : List Token} (h : Derives phrase e) :
    Leads e phrase := by
  induction h with
  | operand _ ih => exact ih
  | binary _ hop _ ihlhs ihrhs =>
      intro frames rest hrest
      rw [List.append_assoc]
      exact ihlhs frames _ (scans_cons (goOn_operator hop) (ihrhs frames rest hrest))
  | unary hop _ ih =>
      intro frames rest hrest
      exact scans_cons (beginOperand_unary hop) (ih frames rest hrest)
  | literal htoken =>
      intro frames rest hrest
      exact scans_cons (beginOperand_literal htoken) hrest
  | @grouping left right e hleft hright hfirst he ih =>
      intro frames rest hrest
      have hstep : goOn (.grouping :: frames) right = some (.behind frames) :=
        (goOn_grouping (not_operator_of_type hright rfl)).trans (closeGrouping_right hright)
      have hinside : Scans (.operand (.grouping :: frames)) (e ++ right :: rest) :=
        ih _ _ (scans_cons hstep hrest)
      rw [List.cons_append, List.append_assoc]
      have hgrouped : Scans (.grouped frames) (e ++ right :: rest) :=
        scans_first he.ne_nil (fun next hnext => if_neg (hfirst next hnext)) hinside
      exact scans_cons (beginOperand_left hleft) hgrouped
  | @groupedSelect left select right e hleft hselect hright _ ih =>
      intro frames rest hrest
      have hinside : Scans (.select .grouped frames) (e ++ right :: rest) :=
        ih _ _ _ (scans_cons (closeGrouping_right hright) hrest)
      rw [List.cons_append, List.cons_append, List.append_assoc]
      exact scans_cons (beginOperand_left hleft) (scans_cons (if_pos hselect) hinside)
  | select hselect _ ih =>
      intro frames rest hrest
      have hbare : Scans (.behindSelect .bare frames) rest := by
        cases rest with
        | nil => trivial
        | cons token rest => exact hrest
      exact scans_cons (beginOperand_select hselect) (ih .bare frames rest hbare)
  | single hfirst he hclause ih =>
      intro place frames rest hrest
      rw [List.append_assoc]
      exact scans_first he.ne_nil (fun next hnext => if_neg (hfirst next hnext))
        (ih _ _ (scans_clause hclause hrest).1)
  | list hleft hright _ hclause ih =>
      intro place frames rest hrest
      rw [List.cons_append, List.append_assoc]
      exact scans_cons (if_pos hleft) (ih place frames _ _ hright (scans_clause hclause hrest).2)
  | last _ ih =>
      intro place frames right rest hright hrest
      have hstep : goOn (.list place :: frames) right = some (.behindList place frames) := by
        rw [goOn_list (not_operator_of_type hright rfl), if_neg (by simp [hright]), if_pos hright]
      exact ih _ _ (scans_cons hstep hrest)
  | @more _ _ comma _ hcomma _ ihe ihes =>
      intro place frames right rest hright hrest
      have hstep : goOn (.list place :: frames) comma = some (.operand (.list place :: frames)) :=
        (goOn_list (not_operator_of_type hcomma rfl)).trans (if_pos hcomma)
      rw [List.append_assoc]
      exact ihe _ _ (scans_cons hstep (ihes place frames right rest hright hrest))

end Runs

/-! ## Where an operand has to follow -/

section Waiting

variable {frames : List Frame} {token : Token} {next : Position}

theorem not_opens {type : TokenType} (htype : token.type = type)
    (h : type ∈ [TokenType.parenthesesR, .from, .identifier]) : ¬ opensOperand token := by
  simp only [List.mem_cons, List.not_mem_nil, or_false] at h
  rcases h with rfl | rfl | rfl <;>
    simp [opensOperand, htype, TokenType.unaryOperator, TokenType.binaryOperator]

/-- A test that such a token fails, or behind which an operand has to follow. -/
theorem test_opens {p : Prop} [Decidable p] {taken : Position} {tried : Option Position}
    (h : (if p then some taken else tried) = some next) (htaken : p → taken.BeforeOperand)
    (htried : tried = some next → next.BeforeOperand) : next.BeforeOperand := by
  split at h
  · cases h
    exact htaken ‹p›
  · exact htried h

theorem last_test_opens {p : Prop} [Decidable p] {taken : Position}
    (h : (if p then some taken else none) = some next) (htaken : p → taken.BeforeOperand) :
    next.BeforeOperand := by
  refine test_opens h htaken fun hnone => ?_
  cases hnone

theorem closeGrouping_opens (hopen : opensOperand token)
    (h : closeGrouping frames token = some next) : next.BeforeOperand :=
  last_test_opens h fun htype => absurd hopen (not_opens htype (by simp))

theorem endSelect_opens {place : Place} (hopen : opensOperand token)
    (hleave : leaveSelect place frames token = some next → next.BeforeOperand)
    (h : endSelect place frames token = some next) : next.BeforeOperand :=
  test_opens h (fun htype => absurd hopen (not_opens htype (by simp))) hleave

theorem goOn_opens (hopen : opensOperand token) (h : goOn frames token = some next) :
    next.BeforeOperand := by
  by_cases hop : token.type.binaryOperator.isSome
  · cases (goOn_operator hop).symm.trans h
    trivial
  · induction frames with
    | nil => cases (goOn_nil hop).symm.trans h
    | cons frame frames ih =>
        cases frame with
        | grouping =>
            rw [goOn_grouping hop] at h
            exact closeGrouping_opens hopen h
        | list place =>
            rw [goOn_list hop] at h
            exact test_opens h (fun _ => trivial) fun hclose =>
              last_test_opens hclose fun htype => absurd hopen (not_opens htype (by simp))
        | single place =>
            rw [goOn_single hop] at h
            refine endSelect_opens hopen (fun hleave => ?_) h
            cases place with
            | statement => cases hleave
            | grouped => exact closeGrouping_opens hopen hleave
            | bare => exact ih hleave

theorem leaveSelect_opens {place : Place} (hopen : opensOperand token)
    (h : leaveSelect place frames token = some next) : next.BeforeOperand := by
  cases place with
  | statement => cases h
  | grouped => exact closeGrouping_opens hopen h
  | bare => exact goOn_opens hopen h

variable [FloatUnit]

theorem not_opens_literal (h : isOperand token) : ¬ opensOperand token := by
  unfold isOperand at h
  cases htype : token.type <;>
    simp [htype, opensOperand, TokenType.unaryOperator, TokenType.binaryOperator] at h ⊢

theorem beginOperand_opens (hopen : opensOperand token)
    (h : beginOperand frames token = some next) : next.BeforeOperand := by
  refine test_opens h (fun _ => trivial) fun hliteral => ?_
  refine test_opens hliteral (fun htoken => absurd hopen (not_opens_literal htoken)) fun hleft => ?_
  exact test_opens hleft (fun _ => trivial) fun hselect => last_test_opens hselect fun _ => trivial

theorem step_opens {position : Position} (hopen : opensOperand token)
    (h : position.step token = some next) : next.BeforeOperand := by
  cases position with
  | operand frames => exact beginOperand_opens hopen h
  | grouped frames => exact test_opens h (fun _ => trivial) (beginOperand_opens hopen)
  | select place frames => exact test_opens h (fun _ => trivial) (beginOperand_opens hopen)
  | behind frames => exact goOn_opens hopen h
  | behindList place frames => exact endSelect_opens hopen (leaveSelect_opens hopen) h
  | fromName place frames =>
      exact last_test_opens h fun htype => absurd hopen (not_opens htype (by simp))
  | behindSelect place frames => exact leaveSelect_opens hopen h

/-- Tokens that are read to their end and end open are read to where an operand has to follow. -/
theorem Scans.waits {position : Position} {tokens : List Token} (h : Scans position tokens)
    (hopen : EndsOpen tokens) : Waits position tokens := by
  obtain ⟨last, hlast, htype⟩ := hopen
  obtain ⟨before, rfl⟩ := List.getLast?_eq_some_iff.mp hlast
  refine (EndsIn.append_iff before [last]).mpr (EndsIn.mono ?_ ((EndsIn.append_iff _ _).mp h))
  rintro middle ⟨next, hstep, _⟩
  exact ⟨next, hstep, step_opens htype hstep⟩

theorem CutOff.waits {select : Token} {tokens : List Token} (h : CutOff (select :: tokens)) :
    Waits (.select .statement []) tokens := by
  rcases h with impossible | ⟨hopen, first, body, rest, _, hbody, happend⟩
  · cases impossible
  · obtain ⟨rfl, rfl⟩ := List.cons.inj happend
    have hbody : Scans (.select .statement []) ((tokens ++ rest) ++ []) :=
      scans_of_derives hbody .statement [] [] trivial
    rw [List.append_assoc] at hbody
    have hbefore : Scans (.select .statement []) tokens :=
      EndsIn.mono (fun _ _ => trivial) ((EndsIn.append_iff _ _).mp hbody)
    cases tokens with
    | nil => trivial
    | cons token tokens =>
        apply hbefore.waits
        obtain ⟨last, hlast, htype⟩ := hopen
        exact ⟨last, by rwa [List.getLast?_cons_cons] at hlast, htype⟩

end Waiting

end HiveDb.Parser
