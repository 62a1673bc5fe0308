import Mustache.Command.Run
import Mustache.Proofs.Outcome

/-! Strictness: what a request becomes when templates that are missing are to count as a failure. -/
namespace Mustache.Command

/-- The same invocation, with templates that are missing counted as a failure. -/
def Invocation.strictly (i : Invocation) : Invocation := { i with strict := true }

namespace Arguments

def strictly (a : Arguments) : Arguments := { a with strict := true }

lemma addOption_strictly {a b : Arguments} {option : PathOption} {value : Text}
    (h : a.addOption option value = .ok b) :
    a.strictly.addOption option value = .ok b.strictly ∧ b.strict = a.strict := by
  obtain ⟨paths, output?, partials?, strict⟩ := a
  unfold addOption at h
  unfold addOption strictly
  split at h
  · simp at h
  · rename_i hv
    rw [if_neg hv]
    cases option <;> cases output? <;> cases partials? <;> simp at h <;> subst h <;>
      exact ⟨rfl, rfl⟩

lemma addPath_strictly {a b : Arguments} {path : Text} (h : a.addPath path = .ok b) :
    a.strictly.addPath path = .ok b.strictly ∧ b.strict = a.strict := by
  unfold addPath at h
  unfold addPath strictly
  split at h
  · simp at h
  · rename_i hl
    split at h
    · simp at h
    · rename_i hp
      obtain rfl := Except.ok.inj h
      rw [if_neg hl, if_neg hp]
      exact ⟨rfl, rfl⟩

lemma foldlM_addPath_strictly {a b : Arguments} {paths : List Text}
    (h : paths.foldlM addPath a = .ok b) :
    paths.foldlM addPath a.strictly = .ok b.strictly ∧ b.strict = a.strict := by
  induction paths generalizing a with
  | nil =>
    obtain rfl := Except.ok.inj h
    exact ⟨rfl, rfl⟩
  | cons path paths ih =>
    rw [List.foldlM_cons, bind_eq_ok_iff] at h
    obtain ⟨c, hc, hrest⟩ := h
    obtain ⟨hfirst, hsame⟩ := addPath_strictly hc
    obtain ⟨hfold, hlast⟩ := ih hrest
    rw [List.foldlM_cons, hfirst, ok_bind]
    exact ⟨hfold, hlast.trans hsame⟩

lemma request_strictly {a : Arguments} {i : Invocation} (h : a.request = .ok (.render i)) :
    a.strictly.request = .ok (.render i.strictly) ∧ i.strict = a.strict := by
  unfold request at h
  unfold request strictly
  split at h
  · rename_i hp
    obtain rfl := Request.render.inj (Except.ok.inj h)
    refine ⟨?_, rfl⟩
    simp only [hp]
    rfl
  · simp at h

/-- Once strictness is asked for it stays so, and asking for it before anything else changes nothing
but that. -/
theorem take_strictly {a : Arguments} {rest : List Text} {i : Invocation}
    (h : a.take rest = .ok (.render i)) :
    (a.strict = true → i.strict = true) ∧
      (i.strict = false → a.strictly.take rest = .ok (.render i.strictly)) := by
  fun_induction Arguments.take a rest with
  | case1 a =>
    obtain ⟨hr, hs⟩ := request_strictly h
    exact ⟨fun ha => hs.trans ha, fun _ => hr⟩
  | case2 a argument rest hread ih =>
    obtain ⟨b, hb, hrest⟩ := bind_eq_ok_iff.mp h
    obtain ⟨hadd, hsame⟩ := addPath_strictly hb
    obtain ⟨hkept, hstrict⟩ := ih b hrest
    refine ⟨fun ha => hkept (hsame.trans ha), fun hi => ?_⟩
    simp only [take, hread, hadd, ok_bind, hstrict hi]
  | case3 a argument rest hread =>
    obtain ⟨b, hb, hrest⟩ := bind_eq_ok_iff.mp h
    obtain ⟨hadd, hsame⟩ := foldlM_addPath_strictly hb
    obtain ⟨hr, hs⟩ := request_strictly hrest
    refine ⟨fun ha => hs.trans (hsame.trans ha), fun hi => ?_⟩
    simp only [take, hread, hadd, ok_bind, hr]
  | case4 a argument rest o value hread ih =>
    obtain ⟨b, hb, hrest⟩ := bind_eq_ok_iff.mp h
    obtain ⟨hadd, hsame⟩ := addOption_strictly hb
    obtain ⟨hkept, hstrict⟩ := ih b hrest
    refine ⟨fun ha => hkept (hsame.trans ha), fun hi => ?_⟩
    simp only [take, hread, hadd, ok_bind, hstrict hi]
  | case6 a argument o hread value rest hv ih =>
    obtain ⟨b, hb, hrest⟩ := bind_eq_ok_iff.mp h
    obtain ⟨hadd, hsame⟩ := addOption_strictly hb
    obtain ⟨hkept, hstrict⟩ := ih b hrest
    refine ⟨fun ha => hkept (hsame.trans ha), fun hi => ?_⟩
    simp only [take, hread, hv, hadd, ok_bind, hstrict hi, Bool.false_eq_true, if_false]
  | case9 a argument rest hread ha ih =>
    have hi := (ih h).1 rfl
    exact ⟨fun ha' => absurd ha' ha, fun hi' => by simp [hi] at hi'⟩
  | _ => simp at h

/-- The flag in front of other arguments asks for strictness. -/
theorem ofArguments_strictly {arguments : List Text} {i : Invocation}
    (h : Request.ofArguments arguments = .ok (.render i)) (hi : i.strict = false) :
    Request.ofArguments ("--strict-partials".toList :: arguments) = .ok (.render i.strictly) := by
  have hread : read "--strict-partials".toList = .strict := by decide
  rw [Request.ofArguments, take, hread]
  exact (take_strictly h).2 hi

end Arguments
end Mustache.Command
