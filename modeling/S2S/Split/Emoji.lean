/-
# Emoji

`src/emoji.h`: the code points that are written for the eye.  The table is the
source's, range by range, and so is the search of it.
-/

import S2S.Ranges

namespace S2S
namespace Split

/-- `EMOJI_RANGES`. -/
def emojiRanges : Array NumberRange :=
  #[⟨0x000A9, 0x000A9⟩, ⟨0x000AE, 0x000AE⟩, ⟨0x0200D, 0x0200D⟩, ⟨0x0203C, 0x0203C⟩,
    ⟨0x02049, 0x02049⟩, ⟨0x020E3, 0x020E3⟩, ⟨0x02122, 0x02122⟩, ⟨0x02139, 0x02139⟩,
    ⟨0x02194, 0x02199⟩, ⟨0x021A9, 0x021AA⟩, ⟨0x0231A, 0x0231B⟩, ⟨0x02328, 0x02328⟩,
    ⟨0x023CF, 0x023CF⟩, ⟨0x023E9, 0x023F3⟩, ⟨0x023F8, 0x023FA⟩, ⟨0x024C2, 0x024C2⟩,
    ⟨0x025AA, 0x025AB⟩, ⟨0x025B6, 0x025B6⟩, ⟨0x025C0, 0x025C0⟩, ⟨0x025FB, 0x025FE⟩,
    ⟨0x02600, 0x02604⟩, ⟨0x0260E, 0x0260E⟩, ⟨0x02611, 0x02611⟩, ⟨0x02614, 0x02615⟩,
    ⟨0x02618, 0x02618⟩, ⟨0x0261D, 0x0261D⟩, ⟨0x02620, 0x02620⟩, ⟨0x02622, 0x02623⟩,
    ⟨0x02626, 0x02626⟩, ⟨0x0262A, 0x0262A⟩, ⟨0x0262E, 0x0262F⟩, ⟨0x02638, 0x0263A⟩,
    ⟨0x02640, 0x02640⟩, ⟨0x02642, 0x02642⟩, ⟨0x02648, 0x02653⟩, ⟨0x0265F, 0x02660⟩,
    ⟨0x02663, 0x02663⟩, ⟨0x02665, 0x02666⟩, ⟨0x02668, 0x02668⟩, ⟨0x0267B, 0x0267B⟩,
    ⟨0x0267E, 0x0267F⟩, ⟨0x02692, 0x02697⟩, ⟨0x02699, 0x02699⟩, ⟨0x0269B, 0x0269C⟩,
    ⟨0x026A0, 0x026A1⟩, ⟨0x026A7, 0x026A7⟩, ⟨0x026AA, 0x026AB⟩, ⟨0x026B0, 0x026B1⟩,
    ⟨0x026BD, 0x026BE⟩, ⟨0x026C4, 0x026C5⟩, ⟨0x026C8, 0x026C8⟩, ⟨0x026CE, 0x026CF⟩,
    ⟨0x026D1, 0x026D1⟩, ⟨0x026D3, 0x026D4⟩, ⟨0x026E9, 0x026EA⟩, ⟨0x026F0, 0x026F5⟩,
    ⟨0x026F7, 0x026FA⟩, ⟨0x026FD, 0x026FD⟩, ⟨0x02702, 0x02702⟩, ⟨0x02705, 0x02705⟩,
    ⟨0x02708, 0x0270D⟩, ⟨0x0270F, 0x0270F⟩, ⟨0x02712, 0x02712⟩, ⟨0x02714, 0x02714⟩,
    ⟨0x02716, 0x02716⟩, ⟨0x0271D, 0x0271D⟩, ⟨0x02721, 0x02721⟩, ⟨0x02728, 0x02728⟩,
    ⟨0x02733, 0x02734⟩, ⟨0x02744, 0x02744⟩, ⟨0x02747, 0x02747⟩, ⟨0x0274C, 0x0274C⟩,
    ⟨0x0274E, 0x0274E⟩, ⟨0x02753, 0x02755⟩, ⟨0x02757, 0x02757⟩, ⟨0x02763, 0x02764⟩,
    ⟨0x02795, 0x02797⟩, ⟨0x027A1, 0x027A1⟩, ⟨0x027B0, 0x027B0⟩, ⟨0x027BF, 0x027BF⟩,
    ⟨0x02934, 0x02935⟩, ⟨0x02B05, 0x02B07⟩, ⟨0x02B1B, 0x02B1C⟩, ⟨0x02B50, 0x02B50⟩,
    ⟨0x02B55, 0x02B55⟩, ⟨0x03030, 0x03030⟩, ⟨0x0303D, 0x0303D⟩, ⟨0x03297, 0x03297⟩,
    ⟨0x03299, 0x03299⟩, ⟨0x0FE0E, 0x0FE0F⟩, ⟨0x1F004, 0x1F004⟩, ⟨0x1F02C, 0x1F02F⟩,
    ⟨0x1F094, 0x1F09F⟩, ⟨0x1F0AF, 0x1F0B0⟩, ⟨0x1F0C0, 0x1F0C0⟩, ⟨0x1F0CF, 0x1F0D0⟩,
    ⟨0x1F0F6, 0x1F0FF⟩, ⟨0x1F170, 0x1F171⟩, ⟨0x1F17E, 0x1F17F⟩, ⟨0x1F18E, 0x1F18E⟩,
    ⟨0x1F191, 0x1F19A⟩, ⟨0x1F1AF, 0x1F1FF⟩, ⟨0x1F201, 0x1F20F⟩, ⟨0x1F21A, 0x1F21A⟩,
    ⟨0x1F22F, 0x1F22F⟩, ⟨0x1F232, 0x1F23A⟩, ⟨0x1F23C, 0x1F23F⟩, ⟨0x1F249, 0x1F25F⟩,
    ⟨0x1F266, 0x1F321⟩, ⟨0x1F324, 0x1F393⟩, ⟨0x1F396, 0x1F397⟩, ⟨0x1F399, 0x1F39B⟩,
    ⟨0x1F39E, 0x1F3F0⟩, ⟨0x1F3F3, 0x1F3F5⟩, ⟨0x1F3F7, 0x1F4FD⟩, ⟨0x1F4FF, 0x1F53D⟩,
    ⟨0x1F549, 0x1F54E⟩, ⟨0x1F550, 0x1F567⟩, ⟨0x1F56F, 0x1F570⟩, ⟨0x1F573, 0x1F57A⟩,
    ⟨0x1F587, 0x1F587⟩, ⟨0x1F58A, 0x1F58D⟩, ⟨0x1F590, 0x1F590⟩, ⟨0x1F595, 0x1F596⟩,
    ⟨0x1F5A4, 0x1F5A5⟩, ⟨0x1F5A8, 0x1F5A8⟩, ⟨0x1F5B1, 0x1F5B2⟩, ⟨0x1F5BC, 0x1F5BC⟩,
    ⟨0x1F5C2, 0x1F5C4⟩, ⟨0x1F5D1, 0x1F5D3⟩, ⟨0x1F5DC, 0x1F5DE⟩, ⟨0x1F5E1, 0x1F5E1⟩,
    ⟨0x1F5E3, 0x1F5E3⟩, ⟨0x1F5E8, 0x1F5E8⟩, ⟨0x1F5EF, 0x1F5EF⟩, ⟨0x1F5F3, 0x1F5F3⟩,
    ⟨0x1F5FA, 0x1F64F⟩, ⟨0x1F680, 0x1F6C5⟩, ⟨0x1F6CB, 0x1F6D2⟩, ⟨0x1F6D5, 0x1F6E5⟩,
    ⟨0x1F6E9, 0x1F6E9⟩, ⟨0x1F6EB, 0x1F6F0⟩, ⟨0x1F6F3, 0x1F6FF⟩, ⟨0x1F7DC, 0x1F7F0⟩,
    ⟨0x1F80C, 0x1F80F⟩, ⟨0x1F848, 0x1F84F⟩, ⟨0x1F85A, 0x1F85F⟩, ⟨0x1F888, 0x1F88F⟩,
    ⟨0x1F8AE, 0x1F8AF⟩, ⟨0x1F8BC, 0x1F8BF⟩, ⟨0x1F8C2, 0x1F8CF⟩, ⟨0x1F8D9, 0x1F8FF⟩,
    ⟨0x1F90C, 0x1F93A⟩, ⟨0x1F93C, 0x1F945⟩, ⟨0x1F947, 0x1F9FF⟩, ⟨0x1FA58, 0x1FA5F⟩,
    ⟨0x1FA6E, 0x1FAFF⟩, ⟨0x1FC00, 0x1FFFD⟩, ⟨0xE0020, 0xE007F⟩]

/-- `emoji_is`. -/
def emojiIs (cp : ℕ) : Bool := inRanges emojiRanges cp

theorem ordered_emojiRanges : Ordered emojiRanges :=
  ordered_of_isChain (by decide +kernel) (by decide +kernel)

/-- **A code point is an emoji exactly when a range of the table holds it.** -/
theorem emojiIs_iff (cp : ℕ) : emojiIs cp = true ↔ ∃ r ∈ emojiRanges, r.Holds cp :=
  inRanges_iff ordered_emojiRanges cp

/-- The ASCII components of the emoji stay out of the table. -/
theorem emojiIs_ascii {cp : ℕ} (h : cp < 0x80) : emojiIs cp = false := by
  rw [← Bool.not_eq_true, emojiIs_iff]
  rintro ⟨r, hr, hholds⟩
  have hfirst : ∀ r ∈ emojiRanges.toList, 0x80 ≤ r.first := by decide +kernel
  exact absurd (hholds.1.trans_lt h) (Nat.not_lt.2 (hfirst r (Array.mem_toList_iff.2 hr)))

end Split
end S2S
