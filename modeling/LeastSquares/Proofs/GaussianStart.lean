import LeastSquares.Proofs.Constraints
import LeastSquares.Proofs.GaussianGuess

/-!
The first guess of a Gaussian peak as the start of a fit. On samples of real numbers there always is
a problem that starts at the guess. Its start is accepted unless sigma is below the limit that the
problem itself sets: samples above the half maximum that are apart give sigma by their distance,
whatever that is, and only samples at one place are given a sigma that is kept above the limit.
-/

namespace LeastSquares

open Extended (real)

namespace Gaussian

variable {α : Type} {n : ℕ} {g : Gaussian}

/-! ### The parameters of a start -/

theorem length_parameters (s : Shape α) : (g.parameters s).length = g.parameterCount := by
  rcases g with ⟨_ | _⟩ <;> rfl

theorem getElem?_two_parameters (s : Shape α) : (g.parameters s)[2]? = some s.sigma := by
  rcases g with ⟨_ | _⟩ <;> rfl

variable [Scalar α]

def startStore (g : Gaussian) (s : Shape α) : Store α :=
  ⟨(((g.parameters s).zip g.parameterNames).map fun (value, name) =>
    let p := (Parameter.ofValue value).setName name
    if name = "sigma" then { p with bounds := ⟨some Scalar.minNormal, none⟩ } else p).toArray⟩

theorem startStore_plain (s : Shape α) : startStore ⟨false⟩ s =
    ⟨#[(Parameter.ofValue s.amplitude).setName "amplitude",
      (Parameter.ofValue s.center).setName "center",
      { (Parameter.ofValue s.sigma).setName "sigma" with
        bounds := ⟨some Scalar.minNormal, none⟩ }]⟩ := by
  simp [startStore, parameters, parameterNames]

theorem startStore_baseline (s : Shape α) : startStore ⟨true⟩ s =
    ⟨#[(Parameter.ofValue s.amplitude).setName "amplitude",
      (Parameter.ofValue s.center).setName "center",
      { (Parameter.ofValue s.sigma).setName "sigma" with
        bounds := ⟨some Scalar.minNormal, none⟩ },
      (Parameter.ofValue s.baseline).setName "baseline"]⟩ := by
  simp [startStore, parameters, parameterNames]

theorem size_startStore (s : Shape α) : (g.startStore s).size = (g.parameters s).length := by
  rcases g with ⟨_ | _⟩
  · rw [startStore_plain]
    rfl
  · rw [startStore_baseline]
    rfl

/-- A parameter of a start is untied and has its value, and only sigma has a limit. -/
structure IsStart (g : Gaussian) (s : Shape α) (i : ℕ) (p : Parameter α) : Prop where
  tie : p.tie = none
  value : p.value = (g.parameters s)[i]?
  bounds : p.bounds = ⟨if i = 2 then some Scalar.minNormal else none, none⟩

theorem isStart_get (s : Shape α) (i : Fin (g.startStore s).size) :
    IsStart g s i ((g.startStore s).get i) := by
  revert i
  rcases g with ⟨_ | _⟩
  · rw [startStore_plain]
    exact Fin.forall_fin_succ.2 ⟨⟨rfl, rfl, rfl⟩,
      Fin.forall_fin_two.2 ⟨⟨rfl, rfl, rfl⟩, ⟨rfl, rfl, rfl⟩⟩⟩
  · rw [startStore_baseline]
    exact Fin.forall_fin_succ.2 ⟨⟨rfl, rfl, rfl⟩, Fin.forall_fin_succ.2 ⟨⟨rfl, rfl, rfl⟩,
      Fin.forall_fin_two.2 ⟨⟨rfl, rfl, rfl⟩, ⟨rfl, rfl, rfl⟩⟩⟩⟩

/-! ### The starting vector -/

noncomputable def startVector (g : Gaussian) (s : Shape ℝ) :
    Vector Extended (g.startStore s.toExtended).size :=
  ⟨((g.parameters s).map real).toArray, by
    rw [size_startStore, parameters_toExtended, List.size_toArray]⟩

theorem toList_startVector (s : Shape ℝ) :
    (g.startVector s).toList = (g.parameters s).map real := rfl

theorem getElem_startVector (s : Shape ℝ) (i : Fin (g.startStore s.toExtended).size) :
    ((g.parameters s).map real)[i.val]? = some (g.startVector s)[i] := by
  rw [← toList_startVector, List.getElem?_eq_getElem (by simp), Vector.getElem_toList]
  rfl

theorem values_startStore (s : Shape ℝ) :
    (g.startStore s.toExtended).values = .ok (g.startVector s) :=
  Store.values_eq_ok fun i => by
    rw [Store.startingValue, (isStart_get s.toExtended i).value, parameters_toExtended,
      getElem_startVector]

theorem checkValue_real {store : Store Extended} {i : Fin store.size} {lower : Option Extended}
    (htie : (store.get i).tie = none) (hbounds : (store.get i).bounds = ⟨lower, none⟩) (x : ℝ) :
    store.checkValue i (real x) = if lower.all fun l => l ≤ real x then .ok () else
      .error (.parameter (.outsideBounds i (.outside (real x) lower none))) := by
  have hfinite : Scalar.isFinite (real x) = true := rfl
  have hcontains : (store.get i).bounds.contains (real x) = lower.all fun l => l ≤ real x := by
    simp [hbounds, Bounds.contains]
  simp only [Store.checkValue, Store.isTied_eq_false.2 htie, hfinite, Bounds.check, hcontains,
    Bool.not_true, Bool.false_eq_true, if_false]
  by_cases h : lower.all fun l => l ≤ real x
  · simp only [if_pos h]
  · simp only [if_neg h, hbounds]

noncomputable def Shape.refusal (s : Shape ℝ) : ParameterError Extended :=
  .outsideBounds 2 (.outside (real s.sigma) (some Scalar.minNormal) none)

theorem checkValue_of_ne_two (s : Shape ℝ) {i : Fin (g.startStore s.toExtended).size}
    (hi : i.val ≠ 2) : (g.startStore s.toExtended).checkValue i (g.startVector s)[i] = .ok () := by
  have hstart := isStart_get s.toExtended i
  have hbounds := hstart.bounds
  rw [if_neg hi] at hbounds
  obtain ⟨x, -, hx⟩ := List.mem_map.1 (List.mem_of_getElem? (getElem_startVector s i))
  rw [← hx, checkValue_real hstart.tie hbounds]
  rfl

theorem checkValue_two (s : Shape ℝ) {i : Fin (g.startStore s.toExtended).size}
    (hi : i.val = 2) : (g.startStore s.toExtended).checkValue i (g.startVector s)[i] =
      if Scalar.minNormal ≤ s.sigma then .ok () else .error (.parameter s.refusal) := by
  have hstart := isStart_get s.toExtended i
  have hvalue : (g.startVector s)[i] = real s.sigma := by
    have h := getElem_startVector s i
    rw [hi, List.getElem?_map, getElem?_two_parameters] at h
    exact (Option.some.inj h).symm
  have hbounds := hstart.bounds
  rw [if_pos hi] at hbounds
  rw [hvalue, checkValue_real hstart.tie hbounds, hi]
  exact ite_congr (propext (decide_eq_true_iff.trans Extended.real_le)) (fun _ => rfl) fun _ => rfl

/-- The start is refused if sigma is below its limit, and for nothing else. -/
theorem check_startVector (s : Shape ℝ) :
    (g.startStore s.toExtended).check (g.startVector s) =
      if Scalar.minNormal ≤ s.sigma then .ok () else .error (.parameter s.refusal) := by
  by_cases hle : Scalar.minNormal ≤ s.sigma
  · rw [if_pos hle]
    refine forM_ok.2 fun i _ => ?_
    by_cases hi : i.val = 2
    · rw [checkValue_two s hi, if_pos hle]
    · exact checkValue_of_ne_two s hi
  · -- the two parameters before sigma have no limits, so sigma is the first to be refused
    have hlt : 2 < (g.startStore s.toExtended).size := by
      rw [size_startStore]
      exact (List.getElem?_eq_some_iff.1 (getElem?_two_parameters _)).1
    have hsigma := checkValue_two s (i := ⟨2, hlt⟩) rfl
    rw [if_neg hle] at hsigma ⊢
    exact Store.check_eq_error hsigma fun j hj => checkValue_of_ne_two s (Fin.lt_def.1 hj).ne

/-! ### The problem -/

theorem exists_ofModel? {x y invSigma : Array α} (k : ℕ) (model : Model α) (hy : y.size = x.size)
    (hinv : invSigma.size = x.size) :
    ∃ problem, Problem.ofModel? k model x y invSigma = .ok problem := by
  rw [Problem.ofModel?, Samples.ofArrays?, dif_pos ⟨hy, hinv⟩]
  exact ⟨_, rfl⟩

/-- On samples of real numbers there is a guess, and a problem that starts at it. -/
theorem exists_problem (g : Gaussian) (x y invSigma : Vector ℝ (n + 1)) :
    ∃ (s : Shape ℝ) (problem : Problem Extended), IsGuess g x y s ∧
      g.guess? (x.map real).toArray (y.map real).toArray = .ok ((g.parameters s).map real) ∧
      g.problem? (x.map real).toArray (y.map real).toArray (invSigma.map real).toArray =
        .ok problem ∧
      problem.parameters = g.startStore s.toExtended := by
  obtain ⟨first, rest, hx⟩ : ∃ first rest, x.toList = first :: rest :=
    List.exists_of_length_succ x.toList x.length_toList
  have hplaces : (x.map real).toArray.toList = real first :: rest.map real := by
    rw [Vector.toList_toArray, Vector.toList_map, hx, List.map_cons]
  have hsamples : (real first :: rest.map real).zip (y.map real).toArray.toList =
      (x.toList.zip y.toList).map fun s => (real s.1, real s.2) := by
    rw [hx, Vector.toList_toArray, Vector.toList_map, ← List.map_cons, List.zip_map]
    rfl
  have hne : x.toList.zip y.toList ≠ [] :=
    List.ne_nil_of_mem (mem_zip_toList.2 ⟨(0 : Fin (n + 1)), rfl⟩)
  have hsize : ∀ z : Vector ℝ (n + 1), (z.map real).toArray.size = (x.map real).toArray.size :=
    fun z => by rw [Vector.size_toArray, Vector.size_toArray]
  have hguess : g.guess? (x.map real).toArray (y.map real).toArray =
      .ok ((g.parameters (g.guessShape first (x.toList.zip y.toList))).map real) := by
    simp only [guess?, hplaces, if_pos (hsize y), hsamples]
    rw [guessShape_map_real first hne, parameters_toExtended]
  obtain ⟨problem, hproblem⟩ := exists_ofModel? g.parameterCount g.model (hsize y) (hsize invSigma)
  refine ⟨_, { problem with parameters := g.startStore (Shape.toExtended _) },
    isGuess_guessShape first x y, hguess, ?_, rfl⟩
  rw [problem?, hguess, startStore, parameters_toExtended]
  change (Problem.ofModel? _ _ _ _ _ >>= _) = _
  rw [hproblem]
  rfl

/-- The values of a problem are those of a shape, and are refused for its sigma if at all. -/
structure StartsAt (problem : Problem Extended) (g : Gaussian) (s : Shape ℝ)
    (v : Vector Extended problem.parameters.size) : Prop where
  values : problem.parameters.values = .ok v
  toList : v.toList = (g.parameters s).map real
  check : problem.parameters.check v =
    if Scalar.minNormal ≤ s.sigma then .ok () else .error (.parameter s.refusal)

theorem exists_startsAt {problem : Problem Extended} {s : Shape ℝ}
    (h : problem.parameters = g.startStore s.toExtended) : ∃ v, StartsAt problem g s v := by
  obtain ⟨parameters, residuals, options⟩ := problem
  obtain rfl : parameters = g.startStore s.toExtended := h
  exact ⟨g.startVector s, values_startStore s, toList_startVector s, check_startVector s⟩

/-- On samples of real numbers, whatever they are, there is a guess: as many finite numbers as the
peak has parameters, with the center where a highest sample is, and a positive sigma. There is a
problem that starts at them. The start is valid, and a fit from it is not refused for a parameter,
if and only if the samples from the half maximum up are all at one place or two of them are far
enough apart. -/
theorem guess_valid_iff (g : Gaussian) (x y invSigma : Vector ℝ (n + 1)) :
    ∃ (s : Shape ℝ) (problem : Problem Extended) (v : Vector Extended problem.parameters.size),
      g.guess? (x.map real).toArray (y.map real).toArray = .ok ((g.parameters s).map real) ∧
      (g.parameters s).length = g.parameterCount ∧ IsGuess g x y s ∧
      g.problem? (x.map real).toArray (y.map real).toArray (invSigma.map real).toArray =
        .ok problem ∧
      problem.parameters.values = .ok v ∧ v.toList = (g.parameters s).map real ∧
      (problem.parameters.validate v.toArray = .ok () ↔ IsWide x y s.half) ∧
      ∀ function options cause,
        prepare problem.parameters function options none = .error (.parameter cause) ↔
          options.validate = .ok () ∧ ¬ IsWide x y s.half ∧ cause = s.refusal := by
  obtain ⟨s, problem, hguess, hvalues, hproblem, hstore⟩ := exists_problem g x y invSigma
  obtain ⟨v, hstart⟩ := exists_startsAt hstore
  refine ⟨s, problem, v, hvalues, length_parameters s, hguess, hproblem, hstart.values,
    hstart.toList, ?_, fun function options cause => ?_⟩
  · rw [Store.validate_toArray, hstart.check, ← hguess.minNormal_le_sigma]
    split_ifs with hle
    · exact iff_of_true rfl hle
    · exact iff_of_false nofun hle
  · have hnone : problem.parameters.startingVector none = .ok v := hstart.values
    rw [prepare_eq_parameter_iff hnone, hstart.check, ← hguess.minNormal_le_sigma]
    refine and_congr_right fun _ => ?_
    split_ifs with hle
    · exact iff_of_false nofun fun h => h.1 hle
    · rw [and_iff_right hle, Except.error.injEq, FitError.parameter.injEq, eq_comm]

namespace Near

/-- Two places that are as far apart as the least sigma. -/
noncomputable def places : Vector ℝ 2 := #v[0, Scalar.minNormal]

def heights : Vector ℝ 2 := .replicate 2 1

theorem getElem_heights (i : Fin 2) : heights[i] = 1 := by
  revert i
  exact Fin.forall_fin_two.2 ⟨rfl, rfl⟩

theorem getElem_places_mem (i : Fin 2) : 0 ≤ places[i] ∧ places[i] ≤ Scalar.minNormal := by
  revert i
  exact Fin.forall_fin_two.2 ⟨⟨le_refl 0, minNormal_pos.le⟩, minNormal_pos.le, le_refl _⟩

theorem not_isWide {half : ℝ} (h : half ≤ 1) : ¬ IsWide places heights half := by
  have hheights : ∀ i : Fin 2, half ≤ heights[i] := fun i => by rwa [getElem_heights]
  have hwidth : (1 : ℝ) < widthPerSigma := by
    change (1 : ℝ) < 2.354820045030949
    norm_num
  rintro (hsame | ⟨i, j, -, -, hfar⟩)
  · exact minNormal_pos.ne (hsame 0 1 (hheights 0) (hheights 1))
  · have hapart : places[i] - places[j] ≤ Scalar.minNormal := by
      linarith [(getElem_places_mem i).2, (getElem_places_mem j).1]
    exact (lt_mul_of_one_lt_right minNormal_pos hwidth).not_ge (hfar.trans hapart)

end Near

/-- Two samples of one height, at places apart by the least sigma, make a problem that refuses its
own start. -/
theorem exists_refused_guess :
    ∃ (problem : Problem Extended) (v : Vector Extended problem.parameters.size)
      (cause : ParameterError Extended),
      Gaussian.problem? ⟨false⟩ (Near.places.map real).toArray (Near.heights.map real).toArray
        (Near.heights.map real).toArray = .ok problem ∧
      problem.parameters.values = .ok v ∧
      problem.parameters.validate v.toArray = .error (.parameter cause) ∧
      ∀ function options, options.validate = .ok () →
        prepare problem.parameters function options none = .error (.parameter cause) := by
  obtain ⟨s, problem, hguess, -, hproblem, hstore⟩ :=
    exists_problem ⟨false⟩ Near.places Near.heights Near.heights
  obtain ⟨v, hstart⟩ := exists_startsAt hstore
  have hhalf : s.half ≤ 1 := by
    obtain ⟨i, -, htop, -⟩ := hguess.top
    have hbaseline : s.baseline = 0 := hguess.baseline
    rw [Near.getElem_heights] at htop
    rw [Shape.half]
    linarith
  have hnarrow := hguess.minNormal_le_sigma.not.2 (Near.not_isWide hhalf)
  have hrefused : problem.parameters.check v = .error (.parameter s.refusal) := by
    rw [hstart.check, if_neg hnarrow]
  have hnone : problem.parameters.startingVector none = .ok v := hstart.values
  refine ⟨problem, v, s.refusal, hproblem, hstart.values, ?_, fun function options hvalid => ?_⟩
  · rw [Store.validate_toArray, hrefused]
  · exact (prepare_eq_parameter_iff hnone).2 ⟨hvalid, hrefused⟩

end Gaussian

end LeastSquares
