import StagedLisp.Analysis

/-! The parts of an analysis. The search for cells to reuse comes last and changes none of the others. -/
namespace StagedLisp.Analysis

theorem ofForm_eq (form : LetForm) (known : Table Shape) (options : Options) :
    ∃ reuse, ofForm form known options = {
      usage := Tally.ofForm form options.analysisDepth
      shapes := ShapeResult.ofForm form (.knowing known) options.analysisDepth
      liveness := Liveness.ofForm form options.livenessCap options.analysisDepth
      ownership := Ownership.ofForm form (Liveness.ofForm form options.livenessCap options.analysisDepth)
      reuse
      names := form.names
      earlyRelease := options.earlyRelease } := by
  unfold ofForm
  dsimp only
  split <;> exact ⟨_,rfl⟩

variable {form : LetForm} {known : Table Shape} {options : Options}

theorem ofForm_usage : (ofForm form known options).usage = Tally.ofForm form options.analysisDepth := by
  obtain ⟨_,equal⟩ := ofForm_eq form known options
  rw [equal]

theorem ofForm_shapes : (ofForm form known options).shapes =
    ShapeResult.ofForm form (.knowing known) options.analysisDepth := by
  obtain ⟨_,equal⟩ := ofForm_eq form known options
  rw [equal]

theorem ofForm_liveness : (ofForm form known options).liveness =
    Liveness.ofForm form options.livenessCap options.analysisDepth := by
  obtain ⟨_,equal⟩ := ofForm_eq form known options
  rw [equal]

theorem ofForm_ownership : (ofForm form known options).ownership =
    Ownership.ofForm form (Liveness.ofForm form options.livenessCap options.analysisDepth) := by
  obtain ⟨_,equal⟩ := ofForm_eq form known options
  rw [equal]

theorem ofForm_names : (ofForm form known options).names = form.names := by
  obtain ⟨_,equal⟩ := ofForm_eq form known options
  rw [equal]

end StagedLisp.Analysis
