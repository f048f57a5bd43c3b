import CausalEquations.Noise
import Mathlib.Logic.Function.Basic
import Mathlib.Tactic.Lemma

/-!
# Names of noise nodes

The name of a noise node is that of its variable behind a mark. So a noise node belongs to one
variable, and every name with the mark is that of a noise node.

* `noiseId_eq`, `isNoise_iff` — the names, spelled out.
* `noiseTarget_noiseId`, `noiseId_injective` — the variable of a noise node.
* `Plain` — names that are no noise nodes.
-/

namespace CausalEquations

lemma noiseId_eq (name : Name) : noiseId name = "noise:" ++ name := by
  refine String.toList_injective ?_
  simp [noiseId, noiseMark]

lemma isNoise_iff {name : Name} : isNoise name = true ↔ ∃ target, name = "noise:" ++ target := by
  rw [isNoise, List.isPrefixOf_iff_prefix]
  constructor
  · rintro ⟨rest, hrest⟩
    refine ⟨String.ofList rest, String.toList_injective ?_⟩
    simp [← hrest, noiseMark]
  · rintro ⟨target, rfl⟩
    exact ⟨target.toList, by simp [noiseMark]⟩

@[simp] lemma isNoise_noiseId (name : Name) : isNoise (noiseId name) = true :=
  isNoise_iff.mpr ⟨name, noiseId_eq name⟩

@[simp] lemma noiseTarget_noiseId (name : Name) : noiseTarget (noiseId name) = name := by
  rw [noiseTarget, isNoise_noiseId, if_pos rfl]
  simp [noiseId]

lemma noiseId_injective : Function.Injective noiseId := fun v w h => by
  have htargets := congrArg noiseTarget h
  rwa [noiseTarget_noiseId, noiseTarget_noiseId] at htargets

/-- The name is not that of a noise node. -/
def Plain (name : Name) : Prop := isNoise name = false

instance (name : Name) : Decidable (Plain name) := inferInstanceAs (Decidable (_ = _))

end CausalEquations
