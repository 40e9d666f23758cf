import BootExtractor.Kernel.Wrapping
import BootExtractor.Lib.Effect

/-!
# Is an unwrapped kernel unwrapped

Unwrapping goes through unified kernel images and ends at one last file. A file that
is no wrapper is handed out, and what a gzip file inflates to has been looked at
before. The payload of a zboot file is handed out unseen, so this is where a wrapper
can be left.
-/

namespace BootExtractor.Kernel

open Bytes

/-- The streaming decoder agrees with the full one on the length of an arm64 header. -/
def Codecs.HeadAgrees (c : Codecs) : Prop :=
  ∀ file head content, c.gunzipHead file = some head → c.gunzip file = .ok content →
    head = content.take 60

/-- The file that is found in a file under so many unified kernel images. -/
inductive Reaches (c : Codecs) : Bytes → Nat → Bytes → Prop where
  | here (data : Bytes) : Reaches c data 0 data
  | uki {data inner file : Bytes} {layers : Nat} (hclass : compression c data = some .uki)
      (hlinux : ukiLinux data = .ok inner) (hinner : Reaches c inner layers file) :
      Reaches c data (layers + 1) file

/-- What the last file of an unwrapping yields. -/
inductive Final (c : Codecs) : Bytes → Bytes → Prop where
  | raw {file : Bytes} (hclass : compression c file = none) : Final c file file
  | gzip {file out : Bytes} (hclass : compression c file = some .gzip)
      (hout : gunzip c file = .ok out) : Final c file out
  | zboot {file out : Bytes} {codec : Str} (hclass : compression c file = some (.zboot codec))
      (hout : unzboot c file codec = .ok out) : Final c file out

/-- The payload of a zboot file decodes to this. -/
def Holds (c : Codecs) (file : Bytes) (codec : Str) (content : Bytes) : Prop :=
  ∃ off size payload, u32Le file zbootPayloadOffset = some off ∧
    u32Le file zbootPayloadSize = some size ∧ get? file off size = some payload ∧
    (Str.startsWith codec "gzip".toList = true ∧ c.gunzip payload = .ok content ∨
      Str.startsWith codec "gzip".toList = false ∧ Str.startsWith codec "zstd".toList = true ∧
        c.unzstd payload = .ok content)

/-- Under at most two unified kernel images there is a zboot file, and its payload decodes
to something that is itself a wrapped kernel. -/
def HidesWrapper (c : Codecs) (data : Bytes) : Prop :=
  ∃ layers < maxDepth, ∃ file codec content, Reaches c data layers file ∧
    compression c file = some (.zboot codec) ∧ Holds c file codec content ∧
    compression c content ≠ none

section Unwrapping

variable {c : Codecs} {data out : Bytes}

private theorem final_raw_iff (h : compression c data = none) : Final c data out ↔ data = out := by
  constructor
  · intro hfinal
    cases hfinal with
    | raw _ => rfl
    | gzip hclass _ => cases h.symm.trans hclass
    | zboot hclass _ => cases h.symm.trans hclass
  · rintro rfl
    exact .raw h

private theorem final_gzip_iff (h : compression c data = some .gzip) :
    Final c data out ↔ gunzip c data = .ok out := by
  constructor
  · intro hfinal
    cases hfinal with
    | raw hclass => cases h.symm.trans hclass
    | gzip _ hout => exact hout
    | zboot hclass _ => cases h.symm.trans hclass
  · exact .gzip h

private theorem final_zboot_iff {codec : Str} (h : compression c data = some (.zboot codec)) :
    Final c data out ↔ unzboot c data codec = .ok out := by
  constructor
  · intro hfinal
    cases hfinal with
    | raw hclass => cases h.symm.trans hclass
    | gzip hclass _ => cases h.symm.trans hclass
    | zboot hclass hout =>
      cases h.symm.trans hclass
      exact hout
  · exact .zboot h

private theorem not_final_uki (h : compression c data = some .uki) : ¬ Final c data out := by
  intro hfinal
  cases hfinal with
  | raw hclass => cases h.symm.trans hclass
  | gzip hclass _ => cases h.symm.trans hclass
  | zboot hclass _ => cases h.symm.trans hclass

/-- Only a unified kernel image leads on to another file. -/
theorem exists_final_iff {n : Nat}
    (hno : ∀ inner, compression c data = some .uki → ukiLinux data ≠ .ok inner) :
    (∃ layers < n + 1, ∃ file, Reaches c data layers file ∧ Final c file out) ↔
      Final c data out := by
  constructor
  · rintro ⟨layers, _, file, hreach, hfinal⟩
    cases hreach with
    | here => exact hfinal
    | uki hclass hlinux _ => exact absurd hlinux (hno _ hclass)
  · intro hfinal
    exact ⟨0, Nat.succ_pos n, data, .here data, hfinal⟩

/-- A unified kernel image yields what the kernel in it does. -/
theorem exists_final_uki_iff {n : Nat} {inner : Bytes} (hclass : compression c data = some .uki)
    (hlinux : ukiLinux data = .ok inner) :
    (∃ layers < n + 1, ∃ file, Reaches c data layers file ∧ Final c file out) ↔
      ∃ layers < n, ∃ file, Reaches c inner layers file ∧ Final c file out := by
  constructor
  · rintro ⟨layers, hlt, file, hreach, hfinal⟩
    cases hreach with
    | here => exact absurd hfinal (not_final_uki hclass)
    | uki _ hlinux' hreach =>
      cases hlinux.symm.trans hlinux'
      exact ⟨_, Nat.lt_of_succ_lt_succ hlt, file, hreach, hfinal⟩
  · rintro ⟨layers, hlt, file, hreach, hfinal⟩
    exact ⟨layers + 1, Nat.succ_lt_succ hlt, file, .uki hclass hlinux hreach, hfinal⟩

/-- Unwrapping succeeds exactly if a last file is reached that yields something. -/
theorem toBootableInner_eq_ok_iff {n depth : Nat} (hn : depth + n = maxDepth) :
    toBootableInner c data depth = .ok out ↔
      ∃ layers < n, ∃ file, Reaches c data layers file ∧ Final c file out := by
  induction n generalizing data depth with
  | zero =>
    rw [toBootableInner, dif_pos (by omega)]
    simp
  | succ n ih =>
    have hdepth : ¬depth ≥ maxDepth := by omega
    rw [toBootableInner, dif_neg hdepth]
    cases hclass : compression c data with
    | none =>
      rw [exists_final_iff (by rw [hclass]; rintro _ ⟨⟩), final_raw_iff hclass]
      exact ⟨fun h => Except.ok.inj h, fun h => congrArg Except.ok h⟩
    | some kind =>
      cases kind with
      | gzip => rw [exists_final_iff (by rw [hclass]; rintro _ ⟨⟩), final_gzip_iff hclass]
      | zboot codec => rw [exists_final_iff (by rw [hclass]; rintro _ ⟨⟩), final_zboot_iff hclass]
      | uki =>
        simp only
        cases hlinux : ukiLinux data with
        | error e =>
          rw [exists_final_iff (by rw [hlinux]; rintro _ _ ⟨⟩)]
          refine ⟨?_, fun hfinal => absurd hfinal (not_final_uki hclass)⟩
          rintro ⟨⟩
        | ok inner =>
          simp only
          rw [ih (by omega), exists_final_uki_iff hclass hlinux]

/-- Unwrapping succeeds exactly if a final layer is reached in time. -/
private theorem toBootable_eq_ok_iff : toBootable c data = .ok out ↔
    ∃ layers < maxDepth, ∃ file, Reaches c data layers file ∧ Final c file out :=
  toBootableInner_eq_ok_iff (Nat.zero_add _)

/-- A file that is no wrapper is left as it is. -/
theorem toBootable_raw (h : compression c data = none) : toBootable c data = .ok data := by
  rw [toBootable, toBootableInner, dif_neg (by decide), h]

private theorem u32Le_lt {b : Bytes} {off n : Nat} (h : u32Le b off = some n) : n < 2 ^ 32 := by
  obtain ⟨raw, hraw, rfl⟩ := Option.map_eq_some_iff.mp h
  have hlen : raw.length = 4 := by
    obtain ⟨hle, rfl⟩ := get?_eq_some_iff.mp hraw
    exact length_slice_of_le hle
  have hlt := le_lt raw
  rw [hlen] at hlt
  exact hlt

private theorem readU32Le_eq_ok_iff {b : Bytes} {off n : Nat} :
    readU32Le b off = .ok n ↔ u32Le b off = some n := by
  unfold readU32Le
  cases u32Le b off <;> simp

private theorem part_eq_ok_iff {what overflow : Str} {b payload : Bytes} {off size : Nat}
    (hoff : off < 2 ^ 32) (hsize : size < 2 ^ 32) :
    part what overflow b off size = .ok payload ↔ get? b off size = some payload := by
  have hadd : checkedAdd off size = some (off + size) := if_pos (by omega)
  unfold part
  rw [hadd]
  cases get? b off size <;> simp

private theorem gunzip_eq_ok_iff : gunzip c data = .ok out ↔ c.gunzip data = .ok out := by
  unfold gunzip
  cases c.gunzip data <;> simp [Except.mapError]

private theorem unzstd_eq_ok_iff : unzstd c data = .ok out ↔ c.unzstd data = .ok out := by
  unfold unzstd
  cases c.unzstd data <;> simp [Except.mapError]

/-- The decoder is picked by the two flags. -/
private theorem decode_eq_ok_iff {isGz isZs : Bool} {payload : Bytes} {e : Error} :
    (if isGz then gunzip c payload else if isZs then unzstd c payload else .error e) = .ok out ↔
      (isGz = true ∧ c.gunzip payload = .ok out ∨
        isGz = false ∧ isZs = true ∧ c.unzstd payload = .ok out) := by
  cases isGz with
  | true => simp [gunzip_eq_ok_iff]
  | false =>
    cases isZs with
    | true => simp [unzstd_eq_ok_iff]
    | false => simp

/-- What a zboot file yields is what its payload decodes to. -/
theorem unzboot_eq_ok_iff {codec : Str} :
    unzboot c data codec = .ok out ↔ Holds c data codec out := by
  constructor
  · intro h
    unfold unzboot at h
    obtain ⟨off, hoff, h⟩ := Effect.bind_eq_ok_iff.mp h
    obtain ⟨size, hsize, h⟩ := Effect.bind_eq_ok_iff.mp h
    obtain ⟨payload, hpayload, h⟩ := Effect.bind_eq_ok_iff.mp h
    rw [readU32Le_eq_ok_iff] at hoff hsize
    rw [part_eq_ok_iff (u32Le_lt hoff) (u32Le_lt hsize)] at hpayload
    exact ⟨off, size, payload, hoff, hsize, hpayload, decode_eq_ok_iff.mp h⟩
  · rintro ⟨off, size, payload, hoff, hsize, hpayload, hdecode⟩
    unfold unzboot
    rw [readU32Le_eq_ok_iff.mpr hoff, readU32Le_eq_ok_iff.mpr hsize]
    simp only [bind, Except.bind]
    rw [(part_eq_ok_iff (u32Le_lt hoff) (u32Le_lt hsize)).mpr hpayload]
    exact decode_eq_ok_iff.mpr hdecode

private theorem isArm64Image_of_take (h : isArm64Image (data.take 60) = true) :
    isArm64Image data = true := by
  rw [isArm64Image_iff] at h ⊢
  rw [At, get?_take] at h
  split at h
  · exact h
  · cases h

/-- A gzip file that is classified as a kernel inflates to a raw image. -/
theorem compression_gunzip (hc : c.HeadAgrees) (hclass : compression c data = some .gzip)
    (hout : gunzip c data = .ok out) : compression c out = none := by
  have hhead : gunzipIsArm64 c data = true := by
    unfold compression at hclass
    split at hclass
    · cases hclass
    split at hclass
    · cases hclass
    split at hclass
    · rename_i hgzip
      exact (Bool.and_eq_true_iff.mp hgzip).2
    split at hclass
    · cases hclass
    · cases hclass
  unfold gunzipIsArm64 at hhead
  cases hstream : c.gunzipHead data with
  | none =>
    rw [hstream] at hhead
    cases hhead
  | some head =>
    rw [hstream, hc data head out hstream (gunzip_eq_ok_iff.mp hout)] at hhead
    exact compression_image (isArm64Image_of_take hhead)

/-- What unwrapping hands out is unwrapped, unless it comes out of a zboot file that holds
another wrapped kernel. -/
theorem toBootable_fixed_iff (hc : c.HeadAgrees) (data : Bytes) :
    (∀ out, toBootable c data = .ok out →
      compression c out = none ∧ toBootable c out = .ok out) ↔ ¬HidesWrapper c data := by
  constructor
  · rintro hfixed ⟨layers, hlt, file, codec, content, hreach, hclass, hholds, hwrapped⟩
    have hout : toBootable c data = .ok content :=
      toBootable_eq_ok_iff.mpr
        ⟨layers, hlt, file, hreach, .zboot hclass (unzboot_eq_ok_iff.mpr hholds)⟩
    exact hwrapped (hfixed content hout).1
  · intro hhides out hout
    have hraw : compression c out = none := by
      obtain ⟨layers, hlt, file, hreach, hfinal⟩ := toBootable_eq_ok_iff.mp hout
      cases hfinal with
      | raw hclass => exact hclass
      | gzip hclass hgunzip => exact compression_gunzip hc hclass hgunzip
      | zboot hclass hunzboot =>
        by_contra hwrapped
        exact hhides ⟨layers, hlt, file, _, out, hreach, hclass, unzboot_eq_ok_iff.mp hunzboot,
          hwrapped⟩
    exact ⟨hraw, toBootable_raw hraw⟩

end Unwrapping

/-- A gzip format that is its magic and the contents. -/
def storedCodecs : Codecs where
  gunzip file :=
    if file.take 2 = [0x1f, 0x8b] then .ok (file.drop 2) else .error "invalid gzip header".toList
  gunzipHead file :=
    if file.take 2 = [0x1f, 0x8b] ∧ 62 ≤ file.length then some ((file.drop 2).take 60) else none
  unzstd _ := .error "invalid frame header".toList

private theorem storedCodecs_headAgrees : storedCodecs.HeadAgrees := by
  intro file head content hhead hcontent
  simp only [storedCodecs] at hhead hcontent
  split at hhead
  · rename_i h
    rw [if_pos h.1] at hcontent
    cases hhead
    cases hcontent
    rfl
  · cases hhead

/-- A gzip file of the image in that format. -/
def storedGzip : Bytes := [0x1f, 0x8b] ++ smallImage

/-- The gzip file in a unified kernel image hides nothing, and unwrapping it is the end. -/
theorem toBootable_fixed_uki :
    toBootable storedCodecs (ukiOf storedGzip) = .ok smallImage ∧
    ¬HidesWrapper storedCodecs (ukiOf storedGzip) ∧
    ∀ out, toBootable storedCodecs (ukiOf storedGzip) = .ok out →
      compression storedCodecs out = none ∧ toBootable storedCodecs out = .ok out := by
  have huki : compression storedCodecs (ukiOf storedGzip) = some .uki := by decide +kernel
  have hgzip : compression storedCodecs storedGzip = some .gzip := by decide +kernel
  have hlinux : ukiLinux (ukiOf storedGzip) = .ok storedGzip := by decide +kernel
  have hunzip : gunzip storedCodecs storedGzip = .ok smallImage := by decide +kernel
  have hout : toBootable storedCodecs (ukiOf storedGzip) = .ok smallImage :=
    toBootable_eq_ok_iff.mpr
      ⟨1, by decide, storedGzip, .uki huki hlinux (.here _), .gzip hgzip hunzip⟩
  refine ⟨hout, ?_⟩
  rw [toBootable_fixed_iff storedCodecs_headAgrees (ukiOf storedGzip), and_self]
  rintro ⟨layers, _, file, codec, content, hreach, hclass, _⟩
  cases hreach with
  | here =>
    rw [huki] at hclass
    cases hclass
  | uki _ hinner hreach =>
    obtain rfl := Except.ok.inj (hlinux.symm.trans hinner)
    cases hreach with
    | here =>
      rw [hgzip] at hclass
      cases hclass
    | uki huki' =>
      rw [hgzip] at huki'
      cases huki'

/-- The header of a zboot file. -/
def zbootHeader : Bytes := mz ++ [0, 0] ++ zimgMagic

/-- A zboot file whose payload is the gzip file of another one. -/
def nestedZboot : Bytes :=
  zbootHeader ++ toLe 4 64 ++ toLe 4 10 ++ List.replicate 8 0 ++ [0x67, 0x7a, 0x69, 0x70] ++
    List.replicate 36 0 ++ [0x1f, 0x8b] ++ zbootHeader

/-- The inner zboot file is handed out. -/
theorem nested_zboot_left_wrapped : storedCodecs.HeadAgrees ∧
    ¬∀ out, toBootable storedCodecs nestedZboot = .ok out →
      compression storedCodecs out = none ∧ toBootable storedCodecs out = .ok out := by
  refine ⟨storedCodecs_headAgrees, fun hfixed => ?_⟩
  have hclass : compression storedCodecs nestedZboot = some (.zboot "gzip".toList) := by
    decide +kernel
  have hout : toBootable storedCodecs nestedZboot = .ok zbootHeader := by
    rw [toBootable, toBootableInner, dif_neg (by decide), hclass]
    decide +kernel
  have hwrapped : compression storedCodecs zbootHeader = some (.zboot "unknown".toList) := by
    decide +kernel
  rw [(hfixed zbootHeader hout).1] at hwrapped
  cases hwrapped

end BootExtractor.Kernel
