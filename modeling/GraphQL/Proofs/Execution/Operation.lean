import GraphQL.Proofs.Execution.Settling

/-!
# Operations

The fields of a query are executed together and then settled. Those of a mutation are executed one
after the other, each settled before the next, until the data is null; what is left out then could
not make it anything else. Both give the data of the direct evaluation.
-/

namespace GraphQL

variable {σ Object Value : Type}

/-- The data and the errors of an execution are those of an evaluation, except that errors can be
missing besides others. -/
structure Reproduces (evaluation : Evaluation Json) (data : Json) (errors : List FieldError) :
    Prop where
  data : data = evaluation.result.getD .null
  met : ∀ error ∈ errors, error ∈ evaluation.errors
  silent : errors = [] → evaluation.errors = []

section

variable {env : Environment σ Object} {represents : σ → ResolvedValue Object → Value → Prop}
  {pure : PureEnvironment Value} {top : PlanChildren} {root : Value}

theorem Underway.reproduces {start : σ} {report : ResponsePath → Evaluation Json}
    {heads : List (String × Bool)} {tree : ResponseTree} {progress : Progress σ Object}
    (underway : Underway represents pure top root report heads start (· ∈ (report []).errors) [] 0
      tree progress) : Reproduces (report []) tree.toJson progress.errors := by
  have queue := underway.queue_eq_nil
  rcases underway.fits with ⟨made, rfl, named, fits⟩
  cases made with
  | none =>
      refine ⟨?_, underway.errors, fun silent => absurd silent fits.2⟩
      rw [fits.1]
      rfl
  | some fields =>
      have agrees : Agrees report (progress.errors = []) (awaits ([] ++ progress.queue)) false
        (.object fields) [] := fits
      have closed : ∀ rest, ¬awaits ([] ++ progress.queue) ([] ++ rest) := by
        rintro rest ⟨task, member, same⟩
        rw [queue] at member
        cases member
      rcases agrees.toJson_eq closed with ⟨data, silent⟩
      refine ⟨?_, underway.errors, silent⟩
      cases result : (report []).result with
      | none =>
          rw [result] at data
          cases data
      | some value =>
          rw [result] at data
          exact (Option.some.inj data).symm

/-! ## Fields together -/

theorem placeAt_root (keyed : top.IsKeyed) :
    ∀ entry ∈ top, entry.2.isIncluded pure.bindings = true →
      pure.placeAt top root ([] ++ [.field entry.2.responseKey]) =
        some (pure.fieldPlace entry.2 root []) := by
  rintro ⟨key, node⟩ member included
  rcases keyed with ⟨distinct, _⟩
  have found := PureEnvironment.fieldPlace?_of_mem distinct member included root []
  simp [PureEnvironment.placeAt, found, PureEnvironment.follow]

theorem executeTogether_reproduces (simulates : Simulates env pure represents) (keyed : top.IsKeyed)
    {value : ResolvedValue Object} {start : σ} (represented : represents start value root) :
    Reproduces ((pure.evaluateFields top root []).map .object)
      (env.executeTogether top value { outside := start }).1.toJson
      (env.executeTogether top value { outside := start }).2.errors := by
  let before : Progress σ Object := { outside := start }
  let first := env.executeFields top value [] before
  have distinct : ((pure.heads top).map Prod.fst).Nodup := by
    rcases keyed with ⟨distinct, _⟩
    exact PureEnvironment.nodup_heads distinct
  have advances : Advances represents pure top root [] (PlanNode.childrenPlaces top) before
      (first.1.map .object, first.2) := by
    have atStart : represents before.outside value root := represented
    have children := executeFields_advances simulates keyed (Nat.le_refl _) atStart
      (placeAt_root keyed)
    refine AdvanceAll.object children (fun fields => executeFields_heads simulates) distinct ?_
    rw [PureEnvironment.report_nil, PureEnvironment.evaluateFields_eq (placeAt_root keyed)]
  rcases advances with ⟨tasks, errors, adds, within, subset, fits⟩
  have queue : first.2.queue = tasks := adds.queue
  have recorded : first.2.errors = errors := adds.errors
  have underway : Underway represents pure top root (pure.report top root) (pure.heads top) start
      (· ∈ (pure.report top root []).errors) [] (PlanNode.childrenPlaces top)
      ((first.1.map .object).getD .null) first.2 := by
    refine ⟨adds.keeps, ⟨first.1, rfl, fun fields => executeFields_heads simulates, ?_⟩, ?_, ?_⟩
    · rw [recorded, queue]
      exact fits false
    · rw [queue]
      exact within
    · rw [recorded]
      exact fun error member => subset member
  exact (underway.settle simulates fun path _ => rfl).reproduces

/-! ## Fields in turn -/

/-- Adding a field to an object adds its key. -/
theorem RootFits.addField {report other : ResponsePath → Evaluation Json}
    {heads : List (String × Bool)} {clean otherClean : Prop} {awaited others : ResponsePath → Prop}
    {tree : ResponseTree} {key : String} {nullable : Bool} {made : Option ResponseTree}
    (fits : RootFits report heads clean awaited tree) (isLive : tree.isLive [] = true)
    (fitsHere : Agrees.Fits other otherClean others nullable made [.field key])
    (same : ∀ path, path ≠ [] → report path = other path)
    (reports : other [] = (Evaluation.fieldsAt other [] (heads ++ [(key, nullable)])).map .object)
    (distinct : ((heads ++ [(key, nullable)]).map Prod.fst).Nodup)
    (less : otherClean → clean) (opens : ∀ path, awaited path → others path) :
    RootFits other (heads ++ [(key, nullable)]) otherClean others
      (Environment.addField tree key nullable made) := by
  rcases fits.exists_object_of_live isLive with ⟨fields, rfl, rfl, agrees⟩
  have filled := fitsHere.filled
  unfold Environment.addField
  cases isMade : ResponseTree.filled nullable made with
  | none =>
      rw [isMade] at filled
      have fails : Evaluation.filled nullable (other ([] ++ [.field key])).result = none := by
        rw [List.nil_append, filled.2.1, filled.1]
        rfl
      have member : (key, nullable) ∈ ResponseTree.heads fields ++ [(key, nullable)] := by simp
      refine ⟨none, rfl, ?_, ?_, filled.2.2⟩
      · intro others made
        cases made
      · rw [reports, Evaluation.map, Evaluation.fieldsAt_result_eq_none member fails]
        rfl
  | some value =>
      rw [isMade] at filled
      have keys : (ResponseTree.heads fields).map Prod.fst = OrderedMap.keys fields := by
        simp [ResponseTree.heads, OrderedMap.keys, Function.comp_def]
      rw [List.map_append, keys] at distinct
      have isNew : key ∉ OrderedMap.keys fields := by
        intro member
        exact (List.disjoint_of_nodup_append distinct) member (List.mem_singleton_self _)
      simp only
      rw [OrderedMap.insert_of_not_mem isNew]
      refine ⟨some (fields ++ [(key, nullable, value)]), rfl, ?_, ?_⟩
      · intro others made
        cases made
        simp [ResponseTree.heads]
      · cases agrees with
        | object _ _ each =>
            refine .object ?_ ?_ ?_
            · simpa [OrderedMap.keys] using distinct
            · simpa [ResponseTree.heads] using reports
            · intro name inner tree member
              rcases List.mem_append.mp member with before | last
              · refine ((each name inner tree before).congr fun rest => same _ (by simp)).mono less ?_
                exact fun rest => opens _
              · cases List.mem_singleton.mp last
                exact filled

/-- The report of an execution that has come to some fields of the root. -/
def PureEnvironment.reportOf (pure : PureEnvironment Value) (top : PlanChildren) (root : Value)
    (done : PlanChildren) (path : ResponsePath) : Evaluation Json :=
  if path = [] then (pure.evaluateFields done root []).map .object else pure.report top root path

theorem PureEnvironment.report_eq_reportOf {done : PlanChildren} (path : ResponsePath)
    (isBelow : path ≠ []) : pure.report top root path = pure.reportOf top root done path := by
  rw [reportOf, if_neg isBelow]

theorem PureEnvironment.reportOf_nil (keyed : top.IsKeyed) {done rest : PlanChildren}
    (isPrefix : top = done ++ rest) :
    pure.reportOf top root done [] =
      (Evaluation.fieldsAt (pure.reportOf top root done) [] (pure.heads done)).map .object := by
  have places : ∀ entry ∈ done, entry.2.isIncluded pure.bindings = true →
      pure.placeAt top root ([] ++ [.field entry.2.responseKey]) =
        some (pure.fieldPlace entry.2 root []) := by
    intro entry member
    apply placeAt_root keyed
    rw [isPrefix]
    exact List.mem_append_left _ member
  rw [← Evaluation.fieldsAt_congr fun key => report_eq_reportOf _ (List.cons_ne_nil _ _), reportOf,
    if_pos rfl, evaluateFields_eq places]

theorem PureEnvironment.mem_report_nil_errors (keyed : top.IsKeyed) {head : String × Bool}
    (member : head ∈ pure.heads top) {error : FieldError}
    (reported : error ∈ (pure.report top root [.field head.1]).errors) :
    error ∈ (pure.report top root []).errors := by
  rw [report_nil, evaluateFields_eq (placeAt_root keyed)]
  exact Evaluation.mem_fieldsAt_errors.mpr ⟨head, member, reported⟩

/-- Adding the next field of the root. -/
theorem Underway.addField (keyed : top.IsKeyed) {done rest : PlanChildren} {key : String}
    {node : PlanNode} (isPrefix : top = done ++ (key, node) :: rest)
    (included : node.isIncluded pure.bindings = true) {start : σ} {limit : Nat}
    {tree : ResponseTree} {progress after : Progress σ Object} {made : Option ResponseTree}
    (underway : Underway represents pure top root (pure.reportOf top root done) (pure.heads done)
      start (· ∈ (pure.report top root []).errors) [] 0 tree progress)
    (isLive : tree.isLive [] = true)
    (advances : Advances represents pure top root [.field node.responseKey] limit progress
      (made, after)) :
    Underway represents pure top root (pure.reportOf top root (done ++ [(key, node)]))
      (pure.heads (done ++ [(key, node)])) start (· ∈ (pure.report top root []).errors) [] limit
      (Environment.addField tree node.responseKey (!node.returnType.isNonNull) made) after := by
  have queue := underway.queue_eq_nil
  rcases advances with ⟨tasks, errors, adds, within, subset, fits⟩
  have waits : after.queue = tasks := by
    have added : after.queue = progress.queue ++ tasks := adds.queue
    rw [added, queue, List.nil_append]
  have recorded : after.errors = progress.errors ++ errors := adds.errors
  have heads : pure.heads (done ++ [(key, node)]) =
      pure.heads done ++ [(node.responseKey, !node.returnType.isNonNull)] := by
    simp [PureEnvironment.heads, included]
  have whole : top = (done ++ [(key, node)]) ++ rest := by rw [isPrefix]; simp
  have member : (node.responseKey, !node.returnType.isNonNull) ∈ pure.heads top := by
    rw [whole, PureEnvironment.heads_append, heads]
    simp
  have reported : ∀ error ∈ (pure.report top root [.field node.responseKey]).errors,
      error ∈ (pure.report top root []).errors := fun error =>
    PureEnvironment.mem_report_nil_errors keyed member
  refine ⟨underway.keeps.trans adds.keeps, ?_, ?_, ?_⟩
  · rw [heads]
    have distinct : ((pure.heads top).map Prod.fst).Nodup := by
      rcases keyed with ⟨distinct, _⟩
      exact PureEnvironment.nodup_heads distinct
    refine underway.fits.addField isLive ((fits _).mono ?_ ?_ ?_) ?_ ?_ ?_ ?_ ?_
    · exact fun rest => PureEnvironment.report_eq_reportOf _ (by simp)
    · exact fun silent => (List.append_eq_nil_iff.mp (recorded ▸ silent)).2
    · rw [waits]
      exact fun rest => awaits_append_right []
    · intro path isBelow
      rw [← PureEnvironment.report_eq_reportOf path isBelow,
        ← PureEnvironment.report_eq_reportOf path isBelow]
    · rw [← heads]
      exact PureEnvironment.reportOf_nil keyed whole
    · rw [← heads]
      rw [whole, PureEnvironment.heads_append, List.map_append] at distinct
      exact (List.nodup_append.mp distinct).1
    · exact fun silent => (List.append_eq_nil_iff.mp (recorded ▸ silent)).1
    · rintro path ⟨task, member, _⟩
      rw [queue] at member
      cases member
  · rw [waits]
    exact within.later (.refl _) (Nat.le_refl _) reported
  · intro error member
    rw [recorded] at member
    rcases List.mem_append.mp member with member | member
    · exact underway.errors error member
    · exact reported error (subset member)

theorem PureEnvironment.report_nil_result_eq_none (keyed : top.IsKeyed) {done rest : PlanChildren}
    (isPrefix : top = done ++ rest) (fails : (pure.reportOf top root done []).result = none) :
    (pure.report top root []).result = none := by
  have whole : pure.report top root [] = pure.reportOf top root top [] := by
    rw [reportOf, if_pos rfl, report_nil]
  rw [reportOf_nil keyed isPrefix, Evaluation.map, Option.map_eq_none_iff,
    ← Evaluation.fieldsAt_congr fun key => report_eq_reportOf _ (List.cons_ne_nil _ _)] at fails
  rw [whole, reportOf_nil keyed (List.append_nil _).symm, Evaluation.map, Option.map_eq_none_iff,
    ← Evaluation.fieldsAt_congr fun key => report_eq_reportOf _ (List.cons_ne_nil _ _), isPrefix,
    heads_append]
  rw [isPrefix] at fails
  exact Evaluation.fieldsAt_append_result_eq_none fails

/-- A field that is not included makes no difference. -/
theorem PureEnvironment.reportOf_skipped (keyed : top.IsKeyed) {done rest : PlanChildren}
    {key : String} {node : PlanNode} (isPrefix : top = done ++ (key, node) :: rest)
    (skipped : node.isIncluded pure.bindings = false) :
    pure.reportOf top root (done ++ [(key, node)]) = pure.reportOf top root done := by
  have whole : top = (done ++ [(key, node)]) ++ rest := by rw [isPrefix]; simp
  have heads : pure.heads (done ++ [(key, node)]) = pure.heads done := by
    simp [PureEnvironment.heads, skipped]
  funext path
  by_cases isRoot : path = []
  · rw [isRoot, reportOf_nil keyed whole, reportOf_nil keyed isPrefix, heads,
      ← Evaluation.fieldsAt_congr fun key => report_eq_reportOf _ (List.cons_ne_nil _ _),
      ← Evaluation.fieldsAt_congr fun key => report_eq_reportOf _ (List.cons_ne_nil _ _)]
  · rw [← report_eq_reportOf path isRoot, ← report_eq_reportOf path isRoot]

theorem executeInTurn_cons (bound : Nat) (value : ResolvedValue Object) (key : String)
    (node : PlanNode) (rest : PlanChildren) (tree : ResponseTree) (progress : Progress σ Object) :
    env.executeInTurn bound value ((key, node) :: rest) tree progress =
      if !tree.isLive [] then (tree, progress)
      else if !node.isIncluded env.bindings then
        env.executeInTurn bound value rest tree progress
      else
        let first := env.executeField node value [.field node.responseKey] progress
        let added := Environment.addField tree node.responseKey (!node.returnType.isNonNull) first.1
        let settled := env.settle bound added first.2
        env.executeInTurn bound value rest settled.1 settled.2 := by
  rw [Environment.executeInTurn]
  split
  · rfl
  · split <;> rfl

theorem executeInTurn_reproduces (simulates : Simulates env pure represents) (keyed : top.IsKeyed)
    {value : ResolvedValue Object} {start : σ} (represented : represents start value root)
    {done rest : PlanChildren} (isPrefix : top = done ++ rest) {tree : ResponseTree}
    {progress : Progress σ Object}
    (underway : Underway represents pure top root (pure.reportOf top root done) (pure.heads done)
      start (· ∈ (pure.report top root []).errors) [] 0 tree progress) :
    Reproduces (pure.report top root [])
      (env.executeInTurn (PlanNode.childrenPlaces top) value rest tree progress).1.toJson
      (env.executeInTurn (PlanNode.childrenPlaces top) value rest tree progress).2.errors := by
  induction rest generalizing done tree progress with
  | nil =>
      rw [List.append_nil] at isPrefix
      have whole : pure.report top root [] = pure.reportOf top root done [] := by
        rw [PureEnvironment.reportOf, if_pos rfl, PureEnvironment.report_nil, isPrefix]
      rw [whole] at underway ⊢
      exact underway.reproduces
  | cons entry rest ih =>
      rcases entry with ⟨key, node⟩
      have whole : top = (done ++ [(key, node)]) ++ rest := by rw [isPrefix]; simp
      rw [executeInTurn_cons]
      by_cases isLive : tree.isLive [] = true
      · rw [if_neg (by simp [isLive])]
        cases included : node.isIncluded pure.bindings with
        | true =>
            have member : (key, node) ∈ top := by rw [isPrefix]; simp
            have inner : ∀ typed ∈ node.typedChildren, PlanChildren.IsKeyed typed.2 := by
              rcases keyed with ⟨_, inner⟩
              exact inner (key, node) member
            have bound := PlanNode.places_le member
            have fewer := PlanNode.places_eq node
            have fields : FieldsAdvance represents pure top root node.typedChildren
                (env.executeTyped node.typedChildren) (PlanNode.childrenPlaces top) :=
              executeTyped_advances_of_keyed simulates inner (by simp only at bound; omega)
            have advances := executeField_advances simulates bound inner fields
              (underway.keeps _ _ represented) (placeAt_root keyed (key, node) member included)
            rw [if_neg (by simp [simulates.bindings, included])]
            exact ih whole ((underway.addField keyed isPrefix included isLive advances).settle
              simulates PureEnvironment.report_eq_reportOf)
        | false =>
            have heads : pure.heads (done ++ [(key, node)]) = pure.heads done := by
              simp [PureEnvironment.heads, included]
            rw [if_pos (by simp [simulates.bindings, included])]
            apply ih whole
            rw [heads, PureEnvironment.reportOf_skipped keyed isPrefix included]
            exact underway
      · rw [if_pos (by simp [isLive])]
        rcases underway.fits with ⟨made, rfl, named, fits⟩
        cases made with
        | some fields => exact absurd rfl isLive
        | none =>
            refine ⟨?_, underway.errors, fun silent => absurd silent fits.2⟩
            rw [PureEnvironment.report_nil_result_eq_none keyed isPrefix fits.1]
            rfl

/-- Executing an operation gives what evaluating it directly gives. -/
theorem executeOperation_reproduces (simulates : Simulates env pure represents)
    {operation : PlanOperation} (keyed : operation.children.IsKeyed) {value : ResolvedValue Object}
    {start : σ} (represented : represents start value root) :
    Reproduces (pure.evaluateOperation operation root)
      (env.executeOperation operation value { outside := start }).1.toJson
      (env.executeOperation operation value { outside := start }).2.errors := by
  have together := executeTogether_reproduces simulates keyed represented
  unfold Environment.executeOperation
  cases operation.kind with
  | query => exact together
  | subscription => exact together
  | mutation =>
      refine executeInTurn_reproduces simulates keyed represented (List.nil_append _).symm ?_
      refine ⟨.refl _, ⟨some [], rfl, ?_, ?_⟩, .nil _ _ _, ?_⟩
      · intro fields made
        cases made
        rfl
      · refine .object List.nodup_nil rfl ?_
        intro key inner tree member
        cases member
      · intro error member
        cases member

end

end GraphQL
