import Lunaria.Apk.Manifest

/-! The manifest parser never faults: no element writes outside a buffer, and every chunk is read within the data. -/

namespace Lunaria.Apk
open Checked

/-! ### Text -/

section Text
variable {cap : Nat}

theorem copyText_safe (value : List UInt8) : (copyText value : Checked (Buf cap)).Safe := by
  unfold copyText
  by_cases h : cap ≤ value.length
  · rw [if_pos h]
    exact safe_fail
  · rw [if_neg h]
    exact (Buf.write_sound (by omega)).safe

theorem append_safe (out : Buf cap) (value separator : List UInt8) : (append out value separator).Safe := by
  unfold append
  generalize (if out.text = [] then [] else separator) = s
  by_cases h : cap ≤ out.text.length + s.length + value.length
  · rw [if_pos h]
    exact safe_fail
  · rw [if_neg h]
    refine (Buf.write_sound ?_).safe
    simp only [List.length_append]
    omega

theorem appendIf_safe (c : Prop) [Decidable c] (out : Buf cap) (value separator : List UInt8) :
    (appendIf c out value separator).Safe :=
  Safe.ite (append_safe _ _ _) safe_ok

variable [NeZero cap]

theorem format_safe (text : List UInt8) : (format text : Checked (Buf cap)).Safe := Safe.ite safe_fail safe_ok

theorem className_safe (pkg name : List UInt8) : (className pkg name : Checked (Buf cap)).Safe :=
  Safe.ite safe_ok (format_safe _)

theorem attrNumber_safe (a : List Attr) (key : String) : (attrNumber a key : Checked (Buf cap)).Safe := by
  unfold attrNumber
  split
  · exact safe_ok
  · exact Safe.ite (copyText_safe _) safe_ok

end Text

theorem processName_safe (pkg proc : List UInt8) : (processName pkg proc).Safe := Safe.ite (format_safe _) (copyText_safe _)

theorem componentProcess_safe (a : List Attr) (s : Events) : (componentProcess a s).Safe := processName_safe _ _

/-! ### Elements -/

section Elements
variable (a : List Attr) (s : Events)

theorem startManifest_safe : (startManifest a s).Safe :=
  (copyText_safe _).bind fun _ => (copyText_safe _).bind fun _ => safe_pure

theorem startApplication_safe : (startApplication a s).Safe :=
  (className_safe _ _).bind fun _ => (attrNumber_safe _ _).bind fun _ => (attrNumber_safe _ _).bind fun _ =>
    (copyText_safe _).bind fun _ => (copyText_safe _).bind fun _ =>
      (Safe.ite (copyText_safe _) (processName_safe _ _)).bind fun _ => safe_pure

theorem startReceiver_safe : (startReceiver a s).Safe :=
  (className_safe _ _).bind fun _ => (copyText_safe _).bind fun _ => (componentProcess_safe _ _).bind fun _ => safe_pure

theorem startService_safe : (startService a s).Safe :=
  (className_safe _ _).bind fun _ => (componentProcess_safe _ _).bind fun _ => safe_pure

theorem startActivity_safe : (startActivity a s).Safe :=
  (processName_safe _ _).bind fun _ => (attrNumber_safe _ _).bind fun _ => (copyText_safe _).bind fun _ =>
    (copyText_safe _).bind fun _ => (attrNumber_safe _ _).bind fun _ => (attrNumber_safe _ _).bind fun _ => safe_pure

theorem startAction_safe : (startAction a s).Safe :=
  (appendIf_safe _ _ _ _).bind fun _ => (appendIf_safe _ _ _ _).bind fun _ => (appendIf_safe _ _ _ _).bind fun _ => safe_pure

theorem startCategory_safe : (startCategory a s).Safe := (append_safe _ _ _).bind fun _ => safe_pure

theorem startPackage_safe : (startPackage a s).Safe := (append_safe _ _ _).bind fun _ => safe_pure

theorem startProvider_safe : (startProvider a s).Safe :=
  (processName_safe _ _).bind fun _ => (className_safe _ _).bind fun _ => (format_safe _).bind fun _ => safe_pure

theorem startMetaData_safe : (startMetaData a s).Safe := by
  unfold startMetaData
  split
  · exact safe_ok
  · exact (format_safe _).bind fun _ => (appendIf_safe _ _ _ _).bind fun _ => (append_safe _ _ _).bind fun _ => safe_pure

theorem startPermission_safe : (startPermission a s).Safe := (append_safe _ _ _).bind fun _ => safe_pure

theorem startLibrary_safe : (startLibrary a s).Safe := Safe.require fun _ => (append_safe _ _ _).bind fun _ => safe_pure

theorem startSdk_safe : (startSdk a s).Safe :=
  (attrNumber_safe _ _).bind fun _ => (attrNumber_safe _ _).bind fun _ => safe_pure

theorem startTag_safe (tag : List UInt8) : (startTag a s tag).Safe := by
  unfold startTag
  refine Safe.ite (startManifest_safe a s) <| Safe.ite (startApplication_safe a s) <| Safe.ite (startReceiver_safe a s) <|
    Safe.ite (startService_safe a s) <| Safe.ite safe_ok <| Safe.ite (startActivity_safe a s) <| Safe.ite safe_ok <|
    Safe.ite (startAction_safe a s) <| Safe.ite (startCategory_safe a s) <| Safe.ite safe_ok <| Safe.ite safe_ok <|
    Safe.ite (startPackage_safe a s) <| Safe.ite (startProvider_safe a s) <| Safe.ite (startMetaData_safe a s) <|
    Safe.ite (startPermission_safe a s) <| Safe.ite (startLibrary_safe a s) <| Safe.ite (startSdk_safe a s) safe_ok

theorem endFilter_safe : (endFilter s).Safe :=
  Safe.ite ((className_safe _ _).bind fun _ => (format_safe _).bind fun _ => (append_safe _ _ _).bind fun _ => safe_pure)
    safe_ok

theorem launchActivity_safe (m : Manifest) : (launchActivity s m).Safe :=
  Safe.ite ((copyText_safe _).bind fun _ => (copyText_safe _).bind fun _ => (className_safe _ _).bind fun _ =>
    (copyText_safe _).bind fun _ => (copyText_safe _).bind fun _ => safe_pure) safe_ok

theorem endActivity_safe : (endActivity s).Safe :=
  Safe.ite ((className_safe _ _).bind fun _ => (className_safe _ _).bind fun _ => (format_safe _).bind fun _ =>
    (append_safe _ _ _).bind fun _ => (launchActivity_safe _ _).bind fun _ => safe_pure) safe_ok

theorem endReceiver_safe : (endReceiver s).Safe :=
  Safe.ite ((format_safe _).bind fun _ => (append_safe _ _ _).bind fun _ => safe_pure) safe_ok

theorem endService_safe : (endService s).Safe :=
  Safe.ite ((format_safe _).bind fun _ => (append_safe _ _ _).bind fun _ => safe_pure) safe_ok

theorem endProvider_safe : (endProvider s).Safe :=
  Safe.ite ((format_safe _).bind fun _ => (append_safe _ _ _).bind fun _ =>
    (Safe.ite (copyText_safe _) safe_ok).bind fun _ => (append_safe _ _ _).bind fun _ => safe_pure) safe_ok

theorem endElement_safe (len : Nat) : (endElement s len).Safe :=
  Safe.require fun _ => (endFilter_safe _).bind fun _ => (endActivity_safe _).bind fun _ =>
    (endReceiver_safe _).bind fun _ =>
    (endService_safe _).bind fun _ => (endProvider_safe _).bind fun _ => safe_pure

end Elements

/-! ### Chunks -/

section Chunks
variable {data : List UInt8} {strings : List (List UInt8)} {p len size : Nat}

theorem attrAt_safe {v : Nat} (hv : v + 20 ≤ data.length) : (attrAt data strings v).Safe := by
  unfold attrAt
  refine Sound.safe (P := fun _ => True) ?_
  refine (read32_sound (by omega)).bind fun key _ => (read32_sound (by omega)).bind fun raw _ => ?_
  refine (read32_sound (by omega)).bind fun value _ => (read_sound (by omega)).bind fun type _ => ?_
  refine (read16_sound (by omega)).bind fun width _ => Sound.require fun hkey => ?_
  refine (axmlString_sound hkey.1).bind fun key _ => Sound.ite (fun _ => ?_) fun _ => Sound.ite (fun hraw => ?_) fun _ => ?_
  · exact Sound.require fun hvalue => (axmlString_sound hvalue).bind fun _ _ => trivial
  · exact (axmlString_sound hraw).bind fun _ _ => trivial
  · trivial

theorem attrsAt_safe {first stride : Nat} : ∀ {count i : Nat}, i + count ≤ 1024 →
    (∀ j, i ≤ j → j < i + count → first + j * stride + 20 ≤ data.length) →
    (attrsAt data strings first stride count i).Safe
  | 0, _, _, _ => safe_pure
  | count + 1, i, hroom, hin => by
    rw [attrsAt]
    refine Sound.safe (P := fun _ => True) (Sound.assert (by omega) ?_)
    have hrest : (attrsAt data strings first stride count (i + 1)).Safe :=
      attrsAt_safe (by omega) fun j hj hlt => hin j (by omega) (by omega)
    exact (attrAt_safe (hin i (Nat.le_refl i) (by omega))).sound.bind fun _ _ => hrest.sound.bind fun _ _ => trivial

theorem startElement_safe {header : Nat} (hp : p + len ≤ data.length) (s : Events) :
    (startElement data p len header s).Safe := by
  unfold startElement
  refine Sound.safe (P := fun _ => True) (Sound.require fun hlen => ?_)
  refine (read32_sound (by omega)).bind fun name _ => Sound.require fun hname => ?_
  refine (axmlString_sound hname).bind fun tag _ => (read16_sound (by omega)).bind fun start _ => ?_
  refine (read16_sound (by omega)).bind fun stride _ => (read16_sound (by omega)).bind fun count _ => ?_
  refine Sound.require fun hstride => (minus_sound hstride.2.2).bind fun room hroom => Sound.require fun hcount => ?_
  refine (attrsAt_safe (by omega) fun j _ hj => ?_).sound.bind fun a _ => (startTag_safe a _ tag).sound
  have hmul : (j + 1) * stride ≤ room / stride * stride := Nat.mul_le_mul_right _ (by omega)
  have hroom' := Nat.div_mul_le_self room stride
  rw [Nat.add_one_mul] at hmul
  omega

theorem chunk_sound {at' : Nat} (hsize : size ≤ data.length) (hat : at' < size) (s : Events) :
    (chunk data size at' s).Sound fun r => at' < r.1 ∧ r.1 ≤ size := by
  unfold chunk
  refine (minus_sound (by omega)).bind fun left hleft => Sound.require fun h8 => ?_
  refine (read16_sound (by omega)).bind fun kind _ => (read16_sound (by omega)).bind fun header _ => ?_
  refine (read32_sound (by omega)).bind fun len _ => Sound.require fun hlen => ?_
  have hbody : (if kind = 1 then do
        let strings ← axmlPool data at' len
        return { s with strings := strings }
      else if kind = 0x102 then startElement data at' len header s
      else if kind = 0x103 then endElement s len
      else .ok s).Safe :=
    Safe.ite ((axmlPool_safe (by omega)).bind fun _ => safe_pure) <| Safe.ite (startElement_safe (by omega) s) <|
      Safe.ite (endElement_safe s len) safe_ok
  refine hbody.sound.bind fun s' _ => ?_
  rw [sound_pure]
  dsimp only
  omega

/-- The whole loop, which comes to its end because every chunk is longer than nothing. -/
theorem chunks_safe (hsize : size ≤ data.length) : ∀ {fuel at' : Nat} {s : Events}, size ≤ at' + fuel → at' ≤ size →
    (chunks data size fuel at' s).Safe
  | 0, at', s, hfuel, hat => by
    rw [chunks, if_neg (by omega)]
    exact safe_ok
  | fuel + 1, at', s, hfuel, hat => by
    rw [chunks]
    by_cases hlt : at' < size
    · rw [if_pos hlt]
      refine ((chunk_sound hsize hlt s).bind fun r hr => ?_).safe (P := fun _ => True)
      exact (chunks_safe hsize (by omega) hr.2).sound
    · rw [if_neg hlt]
      exact safe_ok

theorem parseManifestEvents_safe {at' : Nat} (h : at' + size ≤ data.length) :
    (parseManifestEvents data at' size strings).Safe :=
  (chunks_safe h (by omega) (by omega)).bind fun _ => Safe.require fun _ => safe_pure

theorem parseManifest_safe (hsize : size ≤ data.length) : (parseManifest data size).Safe := by
  unfold parseManifest
  refine Sound.safe (P := fun _ => True) (Sound.require fun h8 => ?_)
  refine (read32_sound (by omega)).bind fun magic _ => Sound.require fun _ => (read32_sound (by omega)).bind fun len _ => ?_
  refine Sound.require fun hlen => (minus_sound hlen.1).bind fun events hevents => ?_
  exact (parseManifestEvents_safe (by omega)).sound

end Chunks

end Lunaria.Apk
